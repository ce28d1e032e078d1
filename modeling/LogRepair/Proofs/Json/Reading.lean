import LogRepair.Json.Forms
import LogRepair.Json.Text

/-!
# Reading exactly the forms of a value

Reading is correct if, of documents that name no member twice, it takes exactly the forms of a
value. This is shown for words and names, and for each way in which values are put together: it
holds of lists, of fields that may be missing, and of records, if it holds of their parts.

* `Json.distinct_of_read?`: no object of a document that a text holds names a member twice.
* `Json.Reads`, `Json.Writes`: reading exactly the forms, and writing one of them.
* `Json.reads_variant`, `Json.reads_list`, `Json.optional?_iff`, `Json.Reads.record`: the ways in
  which values are put together.
* `Json.RoundTrips.of_reads_writes`: the two together give back what was written.
-/

namespace LogRepair

namespace Json

/-! ## Documents from texts -/

theorem mem_of_mem_lastMembers {members : List (String × Json)} {m : String × Json}
    (h : m ∈ lastMembers members) : m ∈ members := by
  induction members with
  | nil => exact h
  | cons m' rest ih =>
    rw [lastMembers] at h
    split at h
    · exact .tail _ (ih h)
    · rcases List.mem_cons.mp h with rfl | h
      · exact .head _
      · exact .tail _ (ih h)

theorem nodup_lastMembers (members : List (String × Json)) :
    ((lastMembers members).map (·.1)).Nodup := by
  induction members with
  | nil => exact List.nodup_nil
  | cons m rest ih =>
    obtain ⟨name, j⟩ := m
    rw [lastMembers]
    split
    · exact ih
    · next hname =>
      refine List.nodup_cons.mpr ⟨fun h => hname ?_, ih⟩
      obtain ⟨m, hm, rfl⟩ := List.mem_map.mp h
      exact List.any_eq_true.mpr ⟨m, mem_of_mem_lastMembers hm, beq_self_eq_true _⟩

theorem distinct_object_lastMembers {members : List (String × Json)}
    (h : ∀ m ∈ members, m.2.Distinct) : (object (lastMembers members)).Distinct :=
  .object (nodup_lastMembers members) fun m hm => h m (mem_of_mem_lastMembers hm)

theorem distinct_of_ofNumeral? {text : List Char} {j : Json} (h : ofNumeral? text = some j) :
    j.Distinct := by
  unfold ofNumeral? at h
  split at h
  · cases h
  · split at h
    · cases h
    · split at h <;> cases h
      · exact .integer _
      · exact .decimal _
  · split at h <;> cases h
    · exact .integer _
    · exact .decimal _

section

variable {fuel : Nat}
  (hvalue : ∀ text j rest, readValue? fuel text = some (j, rest) → j.Distinct)
  (hitems : ∀ text items rest, readItems? fuel text = some (items, rest) → ∀ j ∈ items, j.Distinct)
  (hmembers : ∀ text members rest, readMembers? fuel text = some (members, rest) →
    ∀ m ∈ members, m.2.Distinct)

include hitems hmembers in
theorem distinct_of_readValue?_succ {text : List Char} {j : Json} {rest : List Char}
    (h : readValue? (fuel + 1) text = some (j, rest)) : j.Distinct := by
  rw [readValue?.eq_def] at h
  dsimp only at h
  split at h
  · obtain ⟨_, -, heq⟩ := Option.map_eq_some_iff.mp h
    cases heq
    exact .null
  · obtain ⟨_, -, heq⟩ := Option.map_eq_some_iff.mp h
    cases heq
    exact .bool _
  · obtain ⟨_, -, heq⟩ := Option.map_eq_some_iff.mp h
    cases heq
    exact .bool _
  · obtain ⟨_, -, heq⟩ := Option.map_eq_some_iff.mp h
    cases heq
    exact .string _
  · split at h
    · cases h
      exact .array fun _ hj => absurd hj List.not_mem_nil
    · obtain ⟨_, hread, heq⟩ := Option.map_eq_some_iff.mp h
      cases heq
      exact .array (hitems _ _ _ hread)
  · split at h
    · cases h
      exact .object .nil fun _ hm => absurd hm List.not_mem_nil
    · obtain ⟨_, hread, heq⟩ := Option.map_eq_some_iff.mp h
      cases heq
      exact distinct_object_lastMembers (hmembers _ _ _ hread)
  · obtain ⟨_, hnumeral, heq⟩ := Option.map_eq_some_iff.mp h
    cases heq
    exact distinct_of_ofNumeral? hnumeral

include hvalue hitems in
theorem distinct_of_readItems?_succ {text : List Char} {items : List Json} {rest : List Char}
    (h : readItems? (fuel + 1) text = some (items, rest)) : ∀ j ∈ items, j.Distinct := by
  rw [readItems?.eq_def] at h
  dsimp only at h
  obtain ⟨⟨item, rest'⟩, hitem, h⟩ := Option.bind_eq_some_iff.mp h
  have hdistinct := hvalue _ _ _ hitem
  dsimp only at h
  split at h
  · obtain ⟨⟨more, rest''⟩, hmore, h⟩ := Option.bind_eq_some_iff.mp h
    cases h
    exact List.forall_mem_cons.mpr ⟨hdistinct, hitems _ _ _ hmore⟩
  · cases h
    exact List.forall_mem_singleton.mpr hdistinct
  · cases h

include hvalue hmembers in
theorem distinct_of_readMembers?_succ {text : List Char} {members : List (String × Json)}
    {rest : List Char} (h : readMembers? (fuel + 1) text = some (members, rest)) :
    ∀ m ∈ members, m.2.Distinct := by
  rw [readMembers?.eq_def] at h
  dsimp only at h
  split at h
  · obtain ⟨⟨name, rest₁⟩, -, h⟩ := Option.bind_eq_some_iff.mp h
    dsimp only at h
    split at h
    · obtain ⟨⟨value, rest₂⟩, hread, h⟩ := Option.bind_eq_some_iff.mp h
      have hdistinct := hvalue _ _ _ hread
      dsimp only at h
      split at h
      · obtain ⟨⟨more, rest₃⟩, hmore, h⟩ := Option.bind_eq_some_iff.mp h
        cases h
        exact List.forall_mem_cons.mpr ⟨hdistinct, hmembers _ _ _ hmore⟩
      · cases h
        exact List.forall_mem_singleton.mpr hdistinct
      · cases h
    · cases h
  · cases h

end

/-- What is read within a bound has no object that names a member twice. -/
theorem distinct_of_readValue? (fuel : Nat) :
    (∀ text j rest, readValue? fuel text = some (j, rest) → j.Distinct) ∧
    (∀ text items rest, readItems? fuel text = some (items, rest) → ∀ j ∈ items, j.Distinct) ∧
    ∀ text members rest, readMembers? fuel text = some (members, rest) →
      ∀ m ∈ members, m.2.Distinct := by
  induction fuel with
  | zero => simp [readValue?, readItems?, readMembers?]
  | succ fuel ih =>
    obtain ⟨hvalue, hitems, hmembers⟩ := ih
    exact ⟨fun _ _ _ => distinct_of_readValue?_succ hitems hmembers,
      fun _ _ _ => distinct_of_readItems?_succ hvalue hitems,
      fun _ _ _ => distinct_of_readMembers?_succ hvalue hmembers⟩

/-- No object of a document that a text holds names a member twice. -/
theorem distinct_of_read? {text : String} {j : Json} (h : read? text = some j) : j.Distinct := by
  unfold read? at h
  split at h
  · next hvalue =>
    split at h
    · cases h
      exact (distinct_of_readValue? _).1 _ _ _ hvalue
    · cases h
  · cases h

/-! ## Words -/

theorem int64?_ofInt64 (n : Int64) : int64? (ofInt64 n) = some n := by
  rw [ofInt64, int64?, Int64.ofInt_toInt, if_pos rfl]

theorem uint64?_ofUInt64 (n : UInt64) : uint64? (ofUInt64 n) = some n := by
  have hword : UInt64.ofNat (n.toNat : Int).toNat = n := by
    rw [Int.toNat_natCast, UInt64.ofNat_toNat]
  rw [ofUInt64, uint64?, hword, if_pos rfl]

/-! ## Members and fields -/

theorem lookup_eq_some_iff {β : Type} {members : List (String × β)}
    (hnames : (members.map (·.1)).Nodup) {name : String} {b : β} :
    members.lookup name = some b ↔ (name, b) ∈ members := by
  induction members with
  | nil => simp
  | cons m rest ih =>
    obtain ⟨name', c⟩ := m
    obtain ⟨hname, hrest⟩ := List.nodup_cons.mp hnames
    by_cases heq : name = name'
    · subst heq
      have hnone : (name, b) ∉ rest := fun h => hname (List.mem_map.mpr ⟨_, h, rfl⟩)
      simp [hnone, eq_comm]
    · have hne : (name == name') = false := beq_false_of_ne heq
      simp [List.lookup_cons, hne, heq, ih hrest]

theorem says_iff {members : List (String × Json)} (hnames : (members.map (·.1)).Nodup)
    {name : String} {field : Option Json} :
    Says members name field ↔ member? name members = field := by
  simp only [Says, ← lookup_eq_some_iff hnames, member?]
  rw [Option.ext_iff]
  exact forall_congr' fun j => iff_comm

/-- The fields of a record are read exactly from its forms. -/
theorem recordForm_iff {names : List String} {fieldForms : List (Option Json) → Prop} {j : Json}
    (hj : j.Distinct) :
    RecordForm names fieldForms j ↔
      ∃ fields, j.fields? names = some fields ∧ fields.length = names.length ∧
        fieldForms fields := by
  cases hj with
  | object hnames _ =>
    rename_i members _
    have hrel : Says members = fun name field => member? name members = field :=
      funext₂ fun _ _ => propext (says_iff hnames)
    have hmentions : ∀ fields, List.Forall₂ (Says members) names fields ↔
        names.map (member? · members) = fields := by
      intro fields
      rw [hrel, ← List.forall₂_map_left_iff (R := Eq), List.forall₂_eq_eq_eq]
    constructor
    · rintro (⟨_, h, hfields⟩ | _)
      exact ⟨_, congrArg some ((hmentions _).mp h), h.length_eq.symm, hfields⟩
    · rintro ⟨fields, h, -, hfields⟩
      exact .object fields ((hmentions _).mpr (Option.some_inj.mp h)) hfields
  | array _ =>
    rename_i items _
    rw [fields?]
    constructor
    · rintro (_ | ⟨hlength, hfields⟩)
      exact ⟨_, if_pos hlength, by rwa [List.length_map], hfields⟩
    · rintro ⟨fields, h, -, hfields⟩
      split at h
      · next hlength =>
        cases h
        exact .array hlength hfields
      · cases h
  | _ =>
    constructor
    · intro h
      cases h
    · rintro ⟨_, h, -⟩
      cases h

/-- A field of a document that names no member twice is such a document. -/
theorem distinct_of_fields? {names : List String} {fields : List (Option Json)} {j : Json}
    (hj : j.Distinct) (h : j.fields? names = some fields) :
    ∀ field ∈ fields, ∀ k, field = some k → k.Distinct := by
  rintro - hfield k rfl
  cases hj with
  | object hnames hmembers =>
    cases h
    obtain ⟨name, -, hname⟩ := List.mem_map.mp hfield
    exact hmembers _ ((lookup_eq_some_iff hnames).mp hname)
  | array hitems =>
    rw [fields?] at h
    split at h
    · cases h
      obtain ⟨item, hitem, heq⟩ := List.mem_map.mp hfield
      cases heq
      exact hitems _ hitem
    · cases h
  | _ => cases h

theorem length_of_fields? {names : List String} {fields : List (Option Json)} {j : Json}
    (h : j.fields? names = some fields) : fields.length = names.length := by
  unfold fields? at h
  split at h
  · cases h
    exact List.length_map _
  · split at h
    · next hlength =>
      cases h
      rwa [List.length_map]
    · cases h
  · cases h

theorem distinct_record {names : List String} {values : List Json} (hnames : names.Nodup)
    (hlength : names.length = values.length) (hvalues : ∀ j ∈ values, j.Distinct) :
    (record names values).Distinct := by
  refine .object ?_ fun m hm => hvalues _ (List.of_mem_zip hm).2
  rwa [List.map_fst_zip (Nat.le_of_eq hlength)]

theorem distinct_ofList {α : Type} {write : α → Json} {items : List α}
    (h : ∀ x ∈ items, (write x).Distinct) : (ofList write items).Distinct := by
  refine .array fun j hj => ?_
  obtain ⟨x, hx, rfl⟩ := List.mem_map.mp hj
  exact h x hx

/-! ## Reading and forms -/

/-- Of documents that name no member twice, `read` takes exactly the forms. -/
def Reads {α : Type} (read : Json → Option α) (form : α → Json → Prop) : Prop :=
  ∀ j, j.Distinct → ∀ a, read j = some a ↔ form a j

/-- What is written is a form, and names no member twice. -/
structure Writes {α : Type} (write : α → Json) (form : α → Json → Prop) : Prop where
  distinct : ∀ a, (write a).Distinct
  form : ∀ a, form a (write a)

/-- Reading a record of which the fields are read from their forms. -/
theorem Reads.record {α : Type} {names : List String} {parse : List (Option Json) → Option α}
    {fieldForms : α → List (Option Json) → Prop}
    (hparse : ∀ fields, fields.length = names.length →
      (∀ field ∈ fields, ∀ k, field = some k → k.Distinct) →
        ∀ a, parse fields = some a ↔ fieldForms a fields) :
    Reads (fun j => j.fields? names >>= parse) fun a => RecordForm names (fieldForms a) := by
  intro j hj a
  change j.fields? names >>= parse = some a ↔ RecordForm names (fieldForms a) j
  rw [recordForm_iff hj, Option.bind_eq_bind, Option.bind_eq_some_iff]
  constructor
  · rintro ⟨fields, hfields, h⟩
    have hlength := length_of_fields? hfields
    exact ⟨fields, hfields, hlength,
      (hparse fields hlength (distinct_of_fields? hj hfields) a).mp h⟩
  · rintro ⟨fields, hfields, hlength, h⟩
    exact ⟨fields, hfields, (hparse fields hlength (distinct_of_fields? hj hfields) a).mpr h⟩

/-- Writing a record of fields that are written in one of their forms. -/
theorem Writes.record {α : Type} {names : List String} {values : α → List Json}
    {fieldForms : α → List (Option Json) → Prop} (hnames : names.Nodup)
    (hlength : ∀ a, names.length = (values a).length)
    (hvalues : ∀ a, ∀ j ∈ values a, j.Distinct)
    (hfields : ∀ a, fieldForms a ((values a).map some)) :
    Writes (fun a => Json.record names (values a)) fun a => RecordForm names (fieldForms a) := by
  have hdistinct : ∀ a, (Json.record names (values a)).Distinct := fun a =>
    distinct_record hnames (hlength a) (hvalues a)
  refine ⟨hdistinct, fun a => (recordForm_iff (hdistinct a)).mpr ?_⟩
  exact ⟨_, fields?_record hnames (hlength a), by rw [List.length_map, hlength], hfields a⟩

section

variable {α : Type} {read : Json → Option α} {write : α → Json} {form : α → Json → Prop}

theorem RoundTrips.of_reads_writes (hread : Reads read form) (hwrite : Writes write form) :
    RoundTrips form write read := by
  have hread_write : ∀ a, read (write a) = some a := fun a =>
    (hread _ (hwrite.distinct a) a).mpr (hwrite.form a)
  refine ⟨hread_write, hread, fun a j k hj hk hform hform' => ?_⟩
  rw [(hread j hj a).mpr hform, (hread k hk a).mpr hform']
  exact ⟨rfl, rfl⟩

theorem required?_iff (hread : Reads read form) {field : Option Json}
    (hfield : ∀ j, field = some j → j.Distinct) {a : α} :
    required? read field = some a ↔ ∃ j, field = some j ∧ form a j := by
  cases field with
  | none => simp [required?]
  | some j => simp [required?, hread j (hfield j rfl)]

theorem optional?_iff (hread : Reads read form) (hnull : read .null = none) {field : Option Json}
    (hfield : ∀ j, field = some j → j.Distinct) {o : Option α} :
    optional? read field = some o ↔ OptionalForm form o field := by
  cases field with
  | none =>
    rw [optional?, Option.some_inj]
    constructor
    · rintro rfl
      exact .missing
    · intro h
      cases h
      rfl
  | some j =>
    have hj := hfield j rfl
    have hnone : ∀ a, ¬form a .null := fun a h => by
      rw [← hread _ .null, hnull] at h
      cases h
    rw [optional?]
    cases o with
    | none =>
      constructor
      · intro h
        cases j with
        | null => exact .null
        | _ => simp [nullable?] at h
      · intro h
        cases h
        rfl
    | some a =>
      have hvalue : nullable? read j = some (some a) ↔ read j = some a := by
        cases j with
        | null => simp [nullable?, hnull]
        | _ => simp [nullable?]
      rw [hvalue, hread j hj]
      exact ⟨.some, fun h => by cases h with | some h => exact h⟩

theorem reads_list (hread : Reads read form) : Reads (list? read) (ListForm form) := by
  intro j hj xs
  cases hj with
  | array hitems =>
    rename_i items
    have hmap : ∀ xs, items.mapM read = some xs ↔ List.Forall₂ form xs items := by
      induction items with
      | nil => simp [eq_comm]
      | cons item items ih =>
        intro xs
        obtain ⟨hitem, hitems⟩ := List.forall_mem_cons.mp hitems
        rw [List.mapM_cons, List.forall₂_cons_right_iff, Option.bind_eq_bind,
          Option.bind_eq_some_iff]
        constructor
        · rintro ⟨x, hx, h⟩
          obtain ⟨rest, hrest, heq⟩ := Option.bind_eq_some_iff.mp h
          exact ⟨x, rest, (hread item hitem x).mp hx, (ih hitems rest).mp hrest,
            (Option.some_inj.mp heq).symm⟩
        · rintro ⟨x, rest, hx, hrest, rfl⟩
          refine ⟨x, (hread item hitem x).mpr hx, ?_⟩
          rw [Option.bind_eq_bind, (ih hitems rest).mpr hrest]
          rfl
    rw [list?, hmap]
    exact ⟨.intro, fun h => by cases h with | intro h => exact h⟩
  | _ => constructor <;> intro h <;> cases h

/-- Items with one form each make a list with one form. -/
theorem listForm_eq_iff {xs : List α} {j : Json} :
    ListForm (fun x j => j = write x) xs j ↔ j = ofList write xs := by
  have hitems : ∀ items : List Json, List.Forall₂ (fun x j => j = write x) xs items ↔
      items = xs.map write := by
    intro items
    rw [eq_comm, ← List.forall₂_eq_eq_eq, List.forall₂_map_left_iff]
    simp only [eq_comm]
  constructor
  · rintro ⟨h⟩
    rw [ofList, (hitems _).mp h]
  · rintro rfl
    exact .intro ((hitems _).mpr rfl)

theorem reads_ofList (hread : Reads read fun a j => j = write a) :
    Reads (list? read) fun xs j => j = ofList write xs := by
  intro j hj xs
  rw [reads_list hread j hj, listForm_eq_iff]

theorem listForm_ofList (hform : ∀ a, form a (write a)) (xs : List α) :
    ListForm form xs (ofList write xs) := by
  refine .intro ?_
  rw [List.forall₂_map_right_iff, List.forall₂_same]
  exact fun x _ => hform x

theorem distinct_ofOption (hwrite : ∀ a, (write a).Distinct) (o : Option α) :
    (ofOption write o).Distinct := by
  cases o with
  | none => exact .null
  | some a => exact hwrite a

theorem optionalForm_ofOption (hform : ∀ a, form a (write a)) (o : Option α) :
    OptionalForm form o (some (ofOption write o)) := by
  cases o with
  | none => exact .null
  | some a => exact .some (hform a)

theorem reads_string : Reads string? fun s j => j = .string s := by
  intro j _ s
  cases j <;> simp [string?]

theorem reads_int64 : Reads int64? fun n j => j = .ofInt64 n := by
  intro j _ n
  constructor
  · intro h
    cases j with
    | integer m =>
      simp only [int64?] at h
      split at h
      · next hm =>
        cases h
        rw [ofInt64, hm]
      · cases h
    | _ => cases h
  · rintro rfl
    exact int64?_ofInt64 n

theorem reads_uint64 : Reads uint64? fun n j => j = .ofUInt64 n := by
  intro j _ n
  constructor
  · intro h
    cases j with
    | integer m =>
      simp only [uint64?] at h
      split at h
      · next hm =>
        cases h
        rw [ofUInt64, hm]
      · cases h
    | _ => cases h
  · rintro rfl
    exact uint64?_ofUInt64 n

/-- A name is read exactly from its forms. -/
theorem reads_variant {all : List α} {name : α → String} (hnames : (all.map name).Nodup)
    (hall : ∀ a, a ∈ all) :
    Reads (variant? (all.map fun a => (name a, a))) fun a => NameForm (name a) := by
  have hlookup : ∀ s a, (all.map fun a => (name a, a)).lookup s = some a ↔ s = name a := by
    intro s a
    rw [lookup_eq_some_iff (by rwa [List.map_map])]
    simp [hall, eq_comm]
  intro j _ a
  unfold variant?
  split
  · next s =>
    rw [hlookup]
    constructor
    · rintro rfl
      exact .alone
    · intro h
      cases h
      rfl
  · next s =>
    rw [hlookup]
    constructor
    · rintro rfl
      exact .only
    · intro h
      cases h
      rfl
  · next halone honly =>
    constructor <;> intro h
    · cases h
    · cases h
      · exact absurd rfl (halone _)
      · exact absurd rfl (honly _)

end

end Json

end LogRepair
