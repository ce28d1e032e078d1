import LogRepair.Layout.View
import LogRepair.Proofs.Json.Reading

/-!
# Documents are read back as they were written

Every value that was written as a document is read back from it, and a document is read as a value
exactly if it is one of its forms. A layout is checked when it is read, so of layouts only the
valid ones come back.

* `reads` and `writes` of each type: it is read exactly from its forms, and written in one of them.
* `Layout.ofJson_eq_ok_iff`: a document is read as what is made of the parts it has, if they pass
  the check.
* `documents_round_trip`: all types of the domain.
-/

namespace LogRepair

/-! ## Records -/

namespace CopyState

theorem reads : Json.Reads ofJson? Form := by
  exact Json.reads_variant (by decide) fun s => by cases s <;> decide

theorem writes : Json.Writes toJson Form := ⟨fun s => .string s.name, fun _ => .alone⟩

end CopyState

namespace BatchStatus

theorem reads : Json.Reads ofJson? Form := by
  exact Json.reads_variant (by decide) fun s => by cases s <;> decide

theorem writes : Json.Writes toJson Form := ⟨fun s => .string s.name, fun _ => .alone⟩

end BatchStatus

namespace Failure

theorem reads : Json.Reads ofJson? Form := by
  refine .record fun fields hlength hdistinct f => ?_
  obtain ⟨cause, rfl⟩ := List.length_eq_one_iff.mp hlength
  simp only [List.forall_mem_cons] at hdistinct
  simp only [Option.bind_eq_bind, Option.bind_eq_some_iff,
    Json.required?_iff Json.reads_string hdistinct.1]
  constructor
  · rintro ⟨_, ⟨_, rfl, rfl⟩, hf⟩
    cases hf
    exact .intro
  · rintro ⟨⟩
    exact ⟨_, ⟨_, rfl, rfl⟩, rfl⟩

theorem writes : Json.Writes toJson Form :=
  .record (by decide) (fun _ => rfl) (fun f => by simp [Json.Distinct.string]) fun _ => .intro

end Failure

namespace Progress

theorem reads : Json.Reads ofJson? Form := by
  refine .record fun fields hlength hdistinct p => ?_
  obtain ⟨state, copied, failure, rfl⟩ := List.length_eq_three.mp hlength
  simp only [List.forall_mem_cons] at hdistinct
  simp only [Option.bind_eq_bind, Option.bind_eq_some_iff,
    Json.required?_iff CopyState.reads hdistinct.1,
    Json.required?_iff Json.reads_uint64 hdistinct.2.1,
    Json.optional?_iff Failure.reads rfl hdistinct.2.2.1]
  constructor
  · rintro ⟨_, ⟨_, rfl, hstate⟩, _, ⟨_, rfl, rfl⟩, _, hfailure, hp⟩
    cases hp
    exact .intro hstate hfailure
  · rintro ⟨hstate, hfailure⟩
    exact ⟨_, ⟨_, rfl, hstate⟩, _, ⟨_, rfl, rfl⟩, _, hfailure, rfl⟩

theorem writes : Json.Writes toJson Form := by
  refine .record (by decide) (fun _ => rfl) (fun p => ?_) fun p => ?_
  · have hfailure := Json.distinct_ofOption Failure.writes.distinct p.failure
    simp only [List.forall_mem_cons]
    exact ⟨CopyState.writes.distinct _, .integer _, hfailure, by simp⟩
  · exact .intro (CopyState.writes.form _) (Json.optionalForm_ofOption Failure.writes.form _)

end Progress

namespace TrackedSegment

theorem reads : Json.Reads ofJson? Form := by
  refine .record fun fields hlength hdistinct s => ?_
  obtain ⟨first, last, progress, rfl⟩ := List.length_eq_three.mp hlength
  simp only [List.forall_mem_cons] at hdistinct
  simp only [Option.bind_eq_bind, Option.bind_eq_some_iff,
    Json.required?_iff Json.reads_int64 hdistinct.1,
    Json.required?_iff Json.reads_int64 hdistinct.2.1,
    Json.required?_iff Progress.reads hdistinct.2.2.1]
  constructor
  · rintro ⟨_, ⟨_, rfl, rfl⟩, _, ⟨_, rfl, rfl⟩, _, ⟨_, rfl, hprogress⟩, hs⟩
    cases hs
    exact .intro hprogress
  · rintro ⟨hprogress⟩
    exact ⟨_, ⟨_, rfl, rfl⟩, _, ⟨_, rfl, rfl⟩, _, ⟨_, rfl, hprogress⟩, rfl⟩

theorem writes : Json.Writes toJson Form := by
  refine .record (by decide) (fun _ => rfl) (fun s => ?_) fun s => ?_
  · simp only [List.forall_mem_cons]
    exact ⟨.integer _, .integer _, Progress.writes.distinct _, by simp⟩
  · exact .intro (Progress.writes.form _)

end TrackedSegment

namespace Batch

theorem reads : Json.Reads ofJson? Form := by
  refine .record fun fields hlength hdistinct b => ?_
  obtain ⟨addresses, sources, rfl⟩ := List.length_eq_two.mp hlength
  simp only [List.forall_mem_cons] at hdistinct
  simp only [Option.bind_eq_bind, Option.bind_eq_some_iff,
    Json.required?_iff (Json.reads_ofList Json.reads_int64) hdistinct.1,
    Json.optional?_iff (Json.reads_ofList Json.reads_string) rfl hdistinct.2.1]
  constructor
  · rintro ⟨_, ⟨_, rfl, rfl⟩, _, hsources, hb⟩
    cases hb
    exact .intro hsources
  · rintro ⟨hsources⟩
    exact ⟨_, ⟨_, rfl, rfl⟩, _, hsources, rfl⟩

theorem writes : Json.Writes toJson Form := by
  refine .record (by decide) (fun _ => rfl) (fun b => ?_) fun b => ?_
  · have haddresses : (Json.ofList .ofInt64 b.addresses).Distinct :=
      Json.distinct_ofList fun _ _ => .integer _
    have hsources : (Json.ofOption (.ofList .string) b.sources).Distinct :=
      Json.distinct_ofOption (fun _ => Json.distinct_ofList fun _ _ => .string _) b.sources
    simp only [List.forall_mem_cons]
    exact ⟨haddresses, hsources, by simp⟩
  · refine .intro (Json.optionalForm_ofOption ?_ b.sources)
    exact fun _ => rfl

end Batch

namespace Stripe

theorem reads : Json.Reads ofJson? Form := by
  refine .record fun fields hlength hdistinct s => ?_
  obtain ⟨servers, rfl⟩ := List.length_eq_one_iff.mp hlength
  simp only [List.forall_mem_cons] at hdistinct
  simp only [Option.bind_eq_bind, Option.bind_eq_some_iff,
    Json.required?_iff (Json.reads_ofList Json.reads_string) hdistinct.1]
  constructor
  · rintro ⟨_, ⟨_, rfl, rfl⟩, hs⟩
    cases hs
    exact .intro
  · rintro ⟨⟩
    exact ⟨_, ⟨_, rfl, rfl⟩, rfl⟩

theorem writes : Json.Writes toJson Form := by
  refine .record (by decide) (fun _ => rfl) (fun s => ?_) fun _ => .intro
  rw [List.forall_mem_singleton]
  exact Json.distinct_ofList fun _ _ => .string _

end Stripe

namespace Region

theorem reads : Json.Reads ofJson? Form := by
  refine .record fun fields hlength hdistinct r => ?_
  obtain ⟨start, stop, stripes, rfl⟩ := List.length_eq_three.mp hlength
  simp only [List.forall_mem_cons] at hdistinct
  simp only [Option.bind_eq_bind, Option.bind_eq_some_iff,
    Json.required?_iff Json.reads_int64 hdistinct.1,
    Json.required?_iff Json.reads_int64 hdistinct.2.1,
    Json.required?_iff (Json.reads_list Stripe.reads) hdistinct.2.2.1]
  constructor
  · rintro ⟨_, ⟨_, rfl, rfl⟩, _, ⟨_, rfl, rfl⟩, _, ⟨_, rfl, hstripes⟩, hr⟩
    cases hr
    exact .intro hstripes
  · rintro ⟨hstripes⟩
    exact ⟨_, ⟨_, rfl, rfl⟩, _, ⟨_, rfl, rfl⟩, _, ⟨_, rfl, hstripes⟩, rfl⟩

theorem writes : Json.Writes toJson Form := by
  refine .record (by decide) (fun _ => rfl) (fun r => ?_) fun r => ?_
  · simp only [List.forall_mem_cons]
    exact ⟨.integer _, .integer _, Json.distinct_ofList fun s _ => Stripe.writes.distinct s,
      by simp⟩
  · exact .intro (Json.listForm_ofList Stripe.writes.form _)

end Region

/-! ## Layouts -/

namespace Layout

theorem reads_parts : Json.Reads partsOfJson? fun parts => Form ⟨parts.1, parts.2⟩ := by
  refine .record fun fields hlength hdistinct parts => ?_
  obtain ⟨epoch, regions, rfl⟩ := List.length_eq_two.mp hlength
  simp only [List.forall_mem_cons] at hdistinct
  simp only [Option.bind_eq_bind, Option.bind_eq_some_iff,
    Json.required?_iff Json.reads_uint64 hdistinct.1,
    Json.required?_iff (Json.reads_list Region.reads) hdistinct.2.1]
  constructor
  · rintro ⟨_, ⟨_, rfl, rfl⟩, _, ⟨_, rfl, hregions⟩, hparts⟩
    cases hparts
    exact .intro hregions
  · rintro ⟨hregions⟩
    exact ⟨_, ⟨_, rfl, rfl⟩, _, ⟨_, rfl, hregions⟩, rfl⟩

theorem writes : Json.Writes toJson Form := by
  refine .record (by decide) (fun _ => rfl) (fun l => ?_) fun l => ?_
  · simp only [List.forall_mem_cons]
    exact ⟨.integer _, Json.distinct_ofList fun r _ => Region.writes.distinct r, by simp⟩
  · exact .intro (Json.listForm_ofList Region.writes.form _)

/-- A document that has the parts of a layout gives what comes of checking them. -/
theorem ofJson_eq_create {j : Json} (hj : j.Distinct) {l : Layout} (h : l.Form j) :
    ofJson j = (create l.epoch l.regions).mapError .refused := by
  rw [ofJson, (reads_parts j hj (l.epoch, l.regions)).mpr h]

theorem ofJson_eq_malformed {j : Json} (hj : j.Distinct) (h : ∀ l : Layout, ¬l.Form j) :
    ofJson j = .error .malformed := by
  rw [ofJson]
  split
  · rfl
  · next epoch regions hparts => exact absurd ((reads_parts j hj _).mp hparts) (h ⟨epoch, regions⟩)

/-- A document is read as what is made of the parts it has, if they pass the check. -/
theorem ofJson_eq_ok_iff {j : Json} (hj : j.Distinct) {l : Layout} :
    ofJson j = .ok l ↔ ∃ m : Layout, m.Form j ∧ create m.epoch m.regions = .ok l := by
  have hcreate : ∀ m : Layout, (create m.epoch m.regions).mapError ReadError.refused = .ok l ↔
      create m.epoch m.regions = .ok l := by
    intro m
    cases create m.epoch m.regions <;> simp [Except.mapError]
  constructor
  · intro h
    by_cases hform : ∃ m : Layout, m.Form j
    · obtain ⟨m, hm⟩ := hform
      exact ⟨m, hm, (hcreate m).mp (ofJson_eq_create hj hm ▸ h)⟩
    · rw [ofJson_eq_malformed hj (not_exists.mp hform)] at h
      cases h
  · rintro ⟨m, hm, h⟩
    rw [ofJson_eq_create hj hm]
    exact (hcreate m).mpr h

theorem ofJson_toJson {l : Layout} (hl : l.Valid) : ofJson l.toJson = .ok l :=
  (ofJson_eq_ok_iff (writes.distinct l)).mpr ⟨l, writes.form l, create_eq_ok_iff.mpr ⟨rfl, hl⟩⟩

/-- What is read was checked. -/
theorem valid_of_ofJson {j : Json} {l : Layout} (h : ofJson j = .ok l) : l.Valid := by
  unfold ofJson at h
  split at h
  · cases h
  · next epoch regions _ =>
    cases hcreate : create epoch regions with
    | error e =>
      rw [hcreate] at h
      cases h
    | ok m =>
      rw [hcreate] at h
      cases h
      exact (create_eq_ok_iff.mp hcreate).2

/-- A valid layout is read from each of its forms. -/
theorem ofJson_eq_ok_of_form {j : Json} (hj : j.Distinct) {l : Layout} (hl : l.Valid)
    (h : l.Form j) : ofJson j = .ok l :=
  (ofJson_eq_ok_iff hj).mpr ⟨l, h, create_eq_ok_iff.mpr ⟨rfl, hl⟩⟩

end Layout

/-! ## All types -/

/-- Every type but layouts is written, and read from all forms of what is written. A valid layout
too; a document is read as a layout if it has the parts of one and the parts pass the check. -/
theorem documents_round_trip :
    Json.RoundTrips CopyState.Form CopyState.toJson CopyState.ofJson? ∧
    Json.RoundTrips BatchStatus.Form BatchStatus.toJson BatchStatus.ofJson? ∧
    Json.RoundTrips Failure.Form Failure.toJson Failure.ofJson? ∧
    Json.RoundTrips Progress.Form Progress.toJson Progress.ofJson? ∧
    Json.RoundTrips TrackedSegment.Form TrackedSegment.toJson TrackedSegment.ofJson? ∧
    Json.RoundTrips Batch.Form Batch.toJson Batch.ofJson? ∧
    Json.RoundTrips Stripe.Form Stripe.toJson Stripe.ofJson? ∧
    Json.RoundTrips Region.Form Region.toJson Region.ofJson? ∧
    (∀ l : Layout, l.Valid → Layout.ofJson l.toJson = .ok l) ∧
    (∀ j l, Layout.ofJson j = .ok l → Layout.ofJson l.toJson = .ok l) ∧
    (∀ (j : Json) (l : Layout), j.Distinct → l.Valid → l.Form j → Layout.ofJson j = .ok l) ∧
    ∀ (j : Json) (l : Layout), j.Distinct → (Layout.ofJson j = .ok l ↔
      ∃ m : Layout, m.Form j ∧ Layout.create m.epoch m.regions = .ok l) :=
  ⟨.of_reads_writes CopyState.reads CopyState.writes,
    .of_reads_writes BatchStatus.reads BatchStatus.writes,
    .of_reads_writes Failure.reads Failure.writes,
    .of_reads_writes Progress.reads Progress.writes,
    .of_reads_writes TrackedSegment.reads TrackedSegment.writes,
    .of_reads_writes Batch.reads Batch.writes,
    .of_reads_writes Stripe.reads Stripe.writes,
    .of_reads_writes Region.reads Region.writes,
    fun _ => Layout.ofJson_toJson,
    fun _ _ h => Layout.ofJson_toJson (Layout.valid_of_ofJson h),
    fun _ _ hj => Layout.ofJson_eq_ok_of_form hj,
    fun _ _ hj => Layout.ofJson_eq_ok_iff hj⟩

theorem documents_round_trip_mixed :
    let list : Json := .array [.object [("Failed", .null)], .integer 7, .array [.string "reset"]]
    let object : Json := .object [("cause_of_failure", .object [("cause", .string "reset")]),
      ("since", .decimal "1.5"), ("total_transferred", .integer 7),
      ("segment_state", .string "Failed")]
    let layout : Layout := ⟨3, [⟨0, 8, [⟨["a"]⟩]⟩]⟩
    let nested : Json := .array [.integer 3, .array [.object [("stripes",
      .array [.array [.array [.string "a"]]]), ("end", .integer 8), ("start", .integer 0)]]]
    (Progress.ofJson? list).map Progress.toJson = (Progress.ofJson? object).map Progress.toJson ∧
      Layout.ofJson nested = .ok layout := by
  intro list object layout nested
  have hfailure : Failure.Form ⟨"reset"⟩ (.array [.string "reset"]) := .array rfl .intro
  have hcause : Failure.Form ⟨"reset"⟩ (.object [("cause", .string "reset")]) :=
    .object [some (.string "reset")] (by simp [Failure.fieldNames, Json.Says, eq_comm])
      .intro
  have hlist : Progress.Form ⟨.failed, 7, some ⟨"reset"⟩⟩ list :=
    .array rfl (.intro .only (.some hfailure))
  have hobject : Progress.Form ⟨.failed, 7, some ⟨"reset"⟩⟩ object :=
    .object [some (.string "Failed"), some (.integer 7),
        some (.object [("cause", .string "reset")])]
      (by simp [Progress.fieldNames, Json.Says, eq_comm]) (.intro .alone (.some hcause))
  have hstripe : Stripe.Form ⟨["a"]⟩ (.array [.array [.string "a"]]) := .array rfl .intro
  have hregion : Region.Form ⟨0, 8, [⟨["a"]⟩]⟩ (.object [("stripes",
      .array [.array [.array [.string "a"]]]), ("end", .integer 8), ("start", .integer 0)]) :=
    .object [some (.integer 0), some (.integer 8),
        some (.array [.array [.array [.string "a"]]])]
      (by simp [Region.fieldNames, Json.Says, eq_comm]) (.intro (.intro (.cons hstripe .nil)))
  have hnested : layout.Form nested := .array rfl (.intro (.intro (.cons hregion .nil)))
  have hdistinct : list.Distinct ∧ object.Distinct ∧ nested.Distinct := by
    simp [list, object, nested]
  have hvalid : layout.Valid := by decide
  obtain ⟨-, -, -, hprogress, -, -, -, -, -, -, hlayout, -⟩ := documents_round_trip
  exact ⟨(hprogress.write_read _ _ _ hdistinct.2.1 hdistinct.1 hobject hlist).2,
    hlayout _ _ hdistinct.2.2 hvalid hnested⟩

end LogRepair
