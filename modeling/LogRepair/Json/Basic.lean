/-!
# JSON documents

A document as it was written. Integers keep all their digits, and a number that was written with
a fraction or an exponent is no integer, whatever its value. The members of an object keep their
order, which means nothing: `Json.member?` looks them up by name.
-/

namespace LogRepair

/-- A document. -/
inductive Json
  | null
  | bool (value : Bool)
  | integer (value : Int)
  /-- A number with a fraction or an exponent, as it was written. -/
  | decimal (digits : String)
  | string (value : String)
  | array (items : List Json)
  | object (members : List (String × Json))

namespace Json

def member? (name : String) (members : List (String × Json)) : Option Json := members.lookup name

def string? : Json → Option String
  | string s => some s
  | _ => none

def bool? : Json → Option Bool
  | bool b => some b
  | _ => none

/-- An integer that a signed 64-bit word holds. -/
def int64? : Json → Option Int64
  | integer n => if (Int64.ofInt n).toInt = n then some (.ofInt n) else none
  | _ => none

/-- An integer that an unsigned 64-bit word holds. -/
def uint64? : Json → Option UInt64
  | integer n => if (UInt64.ofNat n.toNat).toNat = n then some (.ofNat n.toNat) else none
  | _ => none

/-- A list whose items all read as `item` wants them. -/
def list? {α : Type} (item : Json → Option α) : Json → Option (List α)
  | array items => items.mapM item
  | _ => none

/-- A value that may be `null`. -/
def nullable? {α : Type} (value : Json → Option α) : Json → Option (Option α)
  | null => some none
  | j => (value j).map some

/-- The object that has these fields. -/
def record (names : List String) (values : List Json) : Json := object (names.zip values)

/-- The fields of a record: of an object by name, where others are passed over, or of an array
that has exactly these fields in this order. -/
def fields? (names : List String) : Json → Option (List (Option Json))
  | object members => some (names.map (member? · members))
  | array items => if items.length = names.length then some (items.map some) else none
  | _ => none

/-- A record that was written is read field by field. -/
theorem fields?_record {names : List String} {values : List Json} (hn : names.Nodup)
    (hl : names.length = values.length) :
    (record names values).fields? names = some (values.map some) := by
  rw [record, fields?]
  congr 1
  induction names generalizing values with
  | nil =>
    obtain rfl := List.length_eq_zero_iff.mp hl.symm
    rfl
  | cons name names ih =>
    obtain ⟨value, values, rfl⟩ := List.exists_cons_of_length_eq_add_one hl.symm
    obtain ⟨hname, hrest⟩ := List.nodup_cons.mp hn
    rw [List.zip_cons_cons, List.map_cons, List.map_cons, ← ih hrest (by simpa using hl)]
    congr 1
    · simp [member?]
    · refine List.map_congr_left fun other hother => ?_
      have hne : other ≠ name := fun h => hname (h ▸ hother)
      simp [member?, List.lookup_cons, beq_false_of_ne hne]

/-- A field that has to be there. -/
def required? {α : Type} (value : Json → Option α) : Option Json → Option α
  | some j => value j
  | none => none

/-- A field that may be missing or `null`. -/
def optional? {α : Type} (value : Json → Option α) : Option Json → Option (Option α)
  | some j => nullable? value j
  | none => some none

def ofInt64 (n : Int64) : Json := integer n.toInt

def ofUInt64 (n : UInt64) : Json := integer n.toNat

def ofNat (n : Nat) : Json := integer n

def ofList {α : Type} (item : α → Json) (items : List α) : Json := array (items.map item)

def ofOption {α : Type} (value : α → Json) : Option α → Json
  | some a => value a
  | none => null

end Json

end LogRepair
