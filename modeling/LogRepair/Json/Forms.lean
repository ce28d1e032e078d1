import LogRepair.Json.Codec
import Mathlib.Data.List.Forall2

/-!
# The forms of a value

Which documents stand for a value, told without reading them. A record may be an object that
mentions its fields among others, in any order, or the array of its fields. An optional field may
be missing or `null`. A name may stand alone or as the only member of an object. Everything else has
one form.

* `Json.Distinct`: no object of a document names a member twice, as is so of every document that a
  text holds.
* `Form` of each type: the documents that stand for a value of it.
* `Json.RoundTrips`: a type whose values are written in one of their forms and read from all.
-/

namespace LogRepair

namespace Json

/-- No object in the document names a member twice. -/
inductive Distinct : Json → Prop
  | null : Distinct .null
  | bool (value : Bool) : Distinct (.bool value)
  | integer (value : Int) : Distinct (.integer value)
  | decimal (digits : String) : Distinct (.decimal digits)
  | string (value : String) : Distinct (.string value)
  | array {items : List Json} (h : ∀ j ∈ items, Distinct j) : Distinct (.array items)
  | object {members : List (String × Json)} (hnames : (members.map (·.1)).Nodup)
      (h : ∀ m ∈ members, Distinct m.2) : Distinct (.object members)

attribute [simp] Distinct.null Distinct.bool Distinct.integer Distinct.decimal Distinct.string

@[simp]
theorem distinct_array_iff {items : List Json} :
    (array items).Distinct ↔ ∀ j ∈ items, j.Distinct :=
  ⟨fun h => by cases h with | array h => exact h, .array⟩

@[simp]
theorem distinct_object_iff {members : List (String × Json)} :
    (object members).Distinct ↔ (members.map (·.1)).Nodup ∧ ∀ m ∈ members, m.2.Distinct :=
  ⟨fun h => by cases h with | object hnames h => exact ⟨hnames, h⟩, fun h => .object h.1 h.2⟩

/-! ## Parts -/

/-- The forms of a name. -/
inductive NameForm (name : String) : Json → Prop
  | alone : NameForm name (.string name)
  | only : NameForm name (.object [(name, .null)])

/-- The array of the forms of some items. -/
inductive ListForm {α : Type} (form : α → Json → Prop) : List α → Json → Prop
  | intro {xs : List α} {items : List Json} (h : List.Forall₂ form xs items) :
      ListForm form xs (.array items)

/-- The forms of a field that may be missing or `null`. -/
inductive OptionalForm {α : Type} (form : α → Json → Prop) : Option α → Option Json → Prop
  | missing : OptionalForm form none none
  | null : OptionalForm form none (some .null)
  | some {a : α} {j : Json} (h : form a j) : OptionalForm form (some a) (some j)

/-- The object says `field` of the name; nothing if it does not mention it. -/
def Says (members : List (String × Json)) (name : String) (field : Option Json) : Prop :=
  ∀ j, field = some j ↔ (name, j) ∈ members

/-- The forms of a record of which the fields have certain forms. -/
inductive RecordForm (names : List String) (fieldForms : List (Option Json) → Prop) : Json → Prop
  | object {members : List (String × Json)} (fields : List (Option Json))
      (hmentions : List.Forall₂ (Says members) names fields) (hfields : fieldForms fields) :
      RecordForm names fieldForms (.object members)
  | array {items : List Json} (hlength : items.length = names.length)
      (hfields : fieldForms (items.map some)) : RecordForm names fieldForms (.array items)

end Json

/-! ## Values of the domain -/

def CopyState.Form (s : CopyState) : Json → Prop := Json.NameForm s.name

def BatchStatus.Form (s : BatchStatus) : Json → Prop := Json.NameForm s.name

namespace Failure

inductive FieldForms (f : Failure) : List (Option Json) → Prop
  | intro : FieldForms f [some (.string f.cause)]

def Form (f : Failure) : Json → Prop := Json.RecordForm fieldNames f.FieldForms

end Failure

namespace Progress

inductive FieldForms (p : Progress) : List (Option Json) → Prop
  | intro {state : Json} {failure : Option Json} (hstate : p.state.Form state)
      (hfailure : Json.OptionalForm Failure.Form p.failure failure) :
      FieldForms p [some state, some (.ofUInt64 p.copied), failure]

def Form (p : Progress) : Json → Prop := Json.RecordForm fieldNames p.FieldForms

end Progress

namespace TrackedSegment

inductive FieldForms (s : TrackedSegment) : List (Option Json) → Prop
  | intro {progress : Json} (hprogress : s.progress.Form progress) :
      FieldForms s [some (.ofInt64 s.first), some (.ofInt64 s.last), some progress]

def Form (s : TrackedSegment) : Json → Prop := Json.RecordForm fieldNames s.FieldForms

end TrackedSegment

namespace Batch

inductive FieldForms (b : Batch) : List (Option Json) → Prop
  | intro {sources : Option Json}
      (hsources : Json.OptionalForm (fun nodes j => j = .ofList .string nodes) b.sources sources) :
      FieldForms b [some (.ofList .ofInt64 b.addresses), sources]

def Form (b : Batch) : Json → Prop := Json.RecordForm fieldNames b.FieldForms

end Batch

namespace Stripe

inductive FieldForms (s : Stripe) : List (Option Json) → Prop
  | intro : FieldForms s [some (.ofList .string s.servers)]

def Form (s : Stripe) : Json → Prop := Json.RecordForm fieldNames s.FieldForms

end Stripe

namespace Region

inductive FieldForms (r : Region) : List (Option Json) → Prop
  | intro {stripes : Json} (hstripes : Json.ListForm Stripe.Form r.stripes stripes) :
      FieldForms r [some (.ofInt64 r.start), some (.ofInt64 r.stop), some stripes]

def Form (r : Region) : Json → Prop := Json.RecordForm fieldNames r.FieldForms

end Region

namespace Layout

inductive FieldForms (l : Layout) : List (Option Json) → Prop
  | intro {regions : Json} (hregions : Json.ListForm Region.Form l.regions regions) :
      FieldForms l [some (.ofUInt64 l.epoch), some regions]

/-- The document has the epoch and the regions of the layout, valid or not. -/
def Form (l : Layout) : Json → Prop := Json.RecordForm fieldNames l.FieldForms

end Layout

/-! ## Writing and reading -/

/-- What is written is read back, what is read are exactly the forms of a value, and all of them are
written alike. -/
structure Json.RoundTrips {α : Type} (form : α → Json → Prop) (write : α → Json)
    (read : Json → Option α) : Prop where
  read_write : ∀ a, read (write a) = some a
  read_iff : ∀ j, j.Distinct → ∀ a, read j = some a ↔ form a j
  write_read : ∀ a j k, j.Distinct → k.Distinct → form a j → form a k →
    (read j).map write = some (write a) ∧ (read k).map write = (read j).map write

end LogRepair
