import Mathlib
import DocumentPath.Proofs.CopySteps
import DocumentPath.Proofs.Visits
import DocumentPath.Spec.CopySpec

/-!
# What declarations make of a copy spec

`CopySpec.declaredBy` says without reference to the order of construction what a list of declarations
declares: a record for every source path, in the order of first mention, that is put together from the
declarations about that path alone.  `CopySpec.build` makes exactly this spec, and it fails exactly if a
source path is given a second filter (`CopySpec.build_eq_declaredBy`).

One declaration augments the record of its source path (`SourceRecord.augment`), whether that record is there
or new, and leaves the others alone; the rest is an induction along the list of declarations.
-/

namespace DocumentPath

/-! ### Repeated entries -/

namespace Entries

variable {κ α : Type*} [DecidableEq κ]

/-- Entries with distinct keys are decided by their keys in order and by what is read under them. -/
lemma ext_get? {es fs : Entries κ α} (hd : Distinct es) (hkeys : keys es = keys fs)
    (hget : ∀ k, get? es k = get? fs k) : es = fs := by
  induction es generalizing fs with
  | nil => exact (List.map_eq_nil_iff.mp hkeys.symm).symm
  | cons e rest ih =>
    obtain ⟨k, v⟩ := e
    cases fs with
    | nil => exact absurd hkeys (by simp [keys])
    | cons f rest' =>
      obtain ⟨k', v'⟩ := f
      obtain ⟨rfl, hrest⟩ : k = k' ∧ keys rest = keys rest' := List.cons.inj hkeys
      have hmem : k ∉ keys rest := (List.nodup_cons.mp hd).1
      have hv : v = v' := by simpa [get?] using hget k
      rw [hv, ih (List.nodup_cons.mp hd).2 hrest fun j => ?_]
      by_cases hj : k = j
      · subst hj
        rw [get?_eq_none_iff.mpr hmem]
        rw [hrest] at hmem
        rw [get?_eq_none_iff.mpr hmem]
      · simpa [get?, hj] using hget j

/-- Each key of a list of entries once, where it comes first, with the value that it has last. -/
def latest (es : Entries κ α) : Entries κ α :=
  (keys es).eraseDups.filterMap fun k => (get? es.reverse k).map fun v => (k, v)

omit [DecidableEq κ] in
/-- The entries of a function on some keys. -/
lemma keys_filterMap {L : List κ} {f : κ → Option α} (h : ∀ k ∈ L, (f k).isSome) :
    keys (L.filterMap fun k => (f k).map fun v => (k, v)) = L := by
  induction L with
  | nil => rfl
  | cons k rest ih =>
    obtain ⟨v, hv⟩ := Option.isSome_iff_exists.mp (h k List.mem_cons_self)
    have hrest := ih fun j hj => h j (List.mem_cons_of_mem k hj)
    rw [keys] at hrest ⊢
    simp [hv, hrest]

/-- Looking up a key among those of a list that have a value. -/
lemma get?_filterMap (L : List κ) (f : κ → Option α) (j : κ) :
    get? (L.filterMap fun k => (f k).map fun v => (k, v)) j = if j ∈ L then f j else none := by
  induction L with
  | nil => rfl
  | cons k rest ih =>
    by_cases hj : k = j
    · subst hj
      cases hv : f k with
      | none => simp [hv, ih]
      | some v => simp [hv, get?]
    · have hj' : j ≠ k := fun h => hj h.symm
      cases hv : f k with
      | none => simp [hv, ih, hj']
      | some v => simp [hv, get?, ih, hj, hj']

/-- The keys of entries inserted into an empty map are their first occurrences. -/
lemma keys_insertAll_nil (es : Entries κ α) : keys (insertAll [] es) = (keys es).eraseDups := by
  induction es using List.reverseRecOn with
  | nil => rfl
  | append_singleton es e ih =>
    have hstep : insertAll [] (es ++ [e]) = insert (insertAll [] es) e.1 e.2 := by
      rw [insertAll, List.foldl_append]
      rfl
    have hkeys : keys (es ++ [e]) = keys es ++ [e.1] := List.map_append
    rw [hstep, hkeys, eraseDups_concat, keys, map_fst_insert]
    rw [keys] at ih
    rw [ih]
    simp only [List.mem_eraseDups]

/-- What is read after insertions into an empty map is the last value inserted under the key. -/
lemma get?_insertAll_nil (es : Entries κ α) (k : κ) : get? (insertAll [] es) k = get? es.reverse k := by
  induction es using List.reverseRecOn with
  | nil => rfl
  | append_singleton es e ih =>
    obtain ⟨k', v⟩ := e
    have hstep : insertAll [] (es ++ [(k', v)]) = insert (insertAll [] es) k' v := by
      rw [insertAll, List.foldl_append]
      rfl
    rw [hstep, List.reverse_concat, get?]
    by_cases hk : k' = k
    · subst hk
      rw [get?_insert_self, if_pos rfl]
    · rw [get?_insert_of_ne _ hk, if_neg hk, ih]

/-- Insertions into an empty map leave the latest value under each key. -/
theorem insertAll_nil (es : Entries κ α) : insertAll [] es = latest es := by
  have hsome : ∀ k ∈ (keys es).eraseDups, (get? es.reverse k).isSome := by
    intro k hk
    rw [List.mem_eraseDups] at hk
    by_contra hnone
    rw [Option.not_isSome_iff_eq_none, get?_eq_none_iff, List.map_reverse, List.mem_reverse] at hnone
    exact hnone hk
  have hd : Distinct ([] : Entries κ α) := List.nodup_nil
  refine ext_get? (distinct_insertAll hd es) ?_ fun k => ?_
  · rw [keys_insertAll_nil, latest, keys_filterMap hsome]
  · rw [get?_insertAll_nil, latest, get?_filterMap]
    split
    · rfl
    · next hk =>
      rw [List.mem_eraseDups] at hk
      rwa [get?_eq_none_iff, List.map_reverse, List.mem_reverse]

/-- Further insertions after the latest ones. -/
lemma insertAll_latest (es fs : Entries κ α) : insertAll (latest es) fs = latest (es ++ fs) := by
  rw [← insertAll_nil, ← insertAll_nil, insertAll, insertAll, insertAll, List.foldl_append]

end Entries

/-! ### What single declarations say -/

namespace Declaration

/-- The source path that a declaration is about; the target of the spec is about none. -/
def path? : Declaration → Option String
  | .target _ => none
  | .source path | .sourceFiltered path _ | .including path _ | .includingFiltered path _ _
  | .excluding path _ | .transforming path _ _ => some path

/-- The target that a declaration sets. -/
def target? : Declaration → Option String
  | .target path => some path
  | _ => none

/-- The filter that a declaration gives to its source path. -/
def filter? : Declaration → Option Filter
  | .sourceFiltered _ filter => some filter
  | _ => none

/-- The source path that a declaration gives a filter to. -/
def filtered? : Declaration → Option String
  | .sourceFiltered path _ => some path
  | _ => none

/-- The paths that a declaration includes, each with its filter. -/
def inclusions : Declaration → Entries String (Option Filter)
  | .including _ includes => includes.map fun path => (path, none)
  | .includingFiltered _ included filter => [(included, some filter)]
  | _ => []

/-- The paths that a declaration excludes. -/
def exclusions : Declaration → List String
  | .excluding _ excludes => excludes
  | _ => []

/-- The paths that a declaration transforms, each with its transform. -/
def transformations : Declaration → Entries String Transform
  | .transforming _ value transform => [(value, transform)]
  | _ => []

/-- The declarations about a source path, in their order. -/
def about (path : String) (ds : List Declaration) : List Declaration :=
  ds.filter fun d => d.path? = some path

/-- The source paths in the order of first mention. -/
def paths (ds : List Declaration) : List String := (ds.filterMap path?).eraseDups

end Declaration

/-- The record that declarations about a source path make. -/
def SourceRecord.declaredBy (path : String) (ds : List Declaration) : SourceRecord where
  path := path
  filter := (ds.filterMap Declaration.filter?).head?
  declared := Entries.latest (ds.flatMap Declaration.inclusions)
  excludes := ds.flatMap Declaration.exclusions
  transforms := Entries.latest (ds.flatMap Declaration.transformations)

/-- The spec that declarations make: the target set last, and for every source path, in the order of first
mention, the record that the declarations about it make. -/
def CopySpec.declaredBy (ds : List Declaration) : CopySpec where
  target := (ds.filterMap Declaration.target?).getLast?.getD ""
  records := (Declaration.paths ds).map fun path => .declaredBy path (Declaration.about path ds)

/-! ### One more declaration -/

namespace SourceRecord

/-- The record after one more declaration about its source path. -/
def augment (r : SourceRecord) (d : Declaration) : SourceRecord where
  path := r.path
  filter := r.filter.or d.filter?
  declared := Entries.insertAll r.declared d.inclusions
  excludes := r.excludes ++ d.exclusions
  transforms := Entries.insertAll r.transforms d.transformations

/-- A declaration augments the record that the ones before it make. -/
lemma declaredBy_concat (path : String) (ds : List Declaration) (d : Declaration) :
    declaredBy path (ds ++ [d]) = (declaredBy path ds).augment d := by
  have hfilter : ((ds ++ [d]).filterMap Declaration.filter?).head?
      = ((ds.filterMap Declaration.filter?).head?).or d.filter? := by
    rw [List.filterMap_append, List.head?_append]
    cases hd : d.filter? <;> simp [hd]
  simp only [declaredBy, augment, hfilter, List.flatMap_append, List.flatMap_singleton,
    Entries.insertAll_latest]

end SourceRecord

namespace CopySpec

/-- Two changes of a record that agree on the records of its path are the same. -/
lemma changeRecord_congr {path : String} {f g : SourceRecord → SourceRecord}
    {records : List SourceRecord} (h : ∀ r ∈ records, r.path = path → f r = g r)
    (hnew : f { path } = g { path }) : changeRecord path f records = changeRecord path g records := by
  induction records with
  | nil => rw [changeRecord, changeRecord, hnew]
  | cons r rest ih =>
    rw [changeRecord, changeRecord, ih fun r' hr' => h r' (List.mem_cons_of_mem r hr')]
    split
    · next hpath => rw [h r List.mem_cons_self hpath]
    · rfl

/-- Among records of different paths, the one of a path is changed if there is one, and otherwise a new one
is added. -/
lemma changeRecord_map {path : String} {f : SourceRecord → SourceRecord} {L : List String}
    (hL : L.Nodup) {record : String → SourceRecord} (hpath : ∀ p, (record p).path = p) :
    changeRecord path f (L.map record)
      = if path ∈ L then L.map fun p => if p = path then f (record p) else record p
        else L.map record ++ [f { path }] := by
  induction L with
  | nil => rfl
  | cons p rest ih =>
    obtain ⟨hnotMem, hrest⟩ := List.nodup_cons.mp hL
    rw [List.map_cons, changeRecord, hpath]
    by_cases hp : p = path
    · subst hp
      have hothers : (rest.map fun p' => if p' = p then f (record p') else record p')
          = rest.map record := by
        refine List.map_congr_left fun p' hp' => if_neg ?_
        rintro rfl
        exact hnotMem hp'
      rw [if_pos rfl, if_pos List.mem_cons_self, List.map_cons, if_pos rfl, hothers]
    · rw [if_neg hp, ih hrest]
      by_cases hmem : path ∈ rest
      · rw [if_pos hmem, if_pos (List.mem_cons_of_mem p hmem), List.map_cons, if_neg hp]
      · have hnot : path ∉ p :: rest := by
          rw [List.mem_cons, not_or]
          exact ⟨Ne.symm hp, hmem⟩
        rw [if_neg hmem, if_neg hnot, List.cons_append]

/-- The draft that declarations make. -/
def draft (ds : List Declaration) : Draft := ds.foldl Draft.declare {}

/-- One more declaration is made on the draft of those before. -/
lemma draft_concat (ds : List Declaration) (d : Declaration) :
    draft (ds ++ [d]) = (draft ds).declare d := by
  rw [draft, List.foldl_append]
  rfl

attribute [local simp] Declaration.filter? Declaration.inclusions Declaration.exclusions
  Declaration.transformations Entries.insertAll

/-- A path has a filter if a record of it has one. -/
lemma hasFilter_eq_true_iff {s : CopySpec} {path : String} :
    s.hasFilter path = true ↔ ∃ r ∈ s.records, r.path = path ∧ r.filter.isSome = true := by
  simp [hasFilter]

/-- A record that has a filter keeps it. -/
lemma augment_sourceFiltered_of_isSome {r : SourceRecord} (h : r.filter.isSome = true) (path : String)
    (filter : Filter) : r.augment (.sourceFiltered path filter) = r := by
  obtain ⟨first, hfirst⟩ := Option.isSome_iff_exists.mp h
  have hkeep : r.filter.or (some filter) = r.filter := by rw [hfirst, Option.some_or]
  simp [SourceRecord.augment, hkeep]

/-- A declaration augments the record of its source path.  This holds of one that is refused as well, since
the record that it is about keeps its first filter. -/
theorem records_declare {b : Draft} {d : Declaration} {path : String} (hd : d.path? = some path)
    {L : List String} (hL : L.Nodup) {record : String → SourceRecord}
    (hpath : ∀ p, (record p).path = p) (hrecords : b.spec.records = L.map record) :
    (b.declare d).spec.records
      = if path ∈ L then L.map fun p => if p = path then (record p).augment d else record p
        else L.map record ++ [({ path } : SourceRecord).augment d] := by
  rw [← changeRecord_map (f := fun r => r.augment d) hL hpath, ← hrecords]
  cases d with
  | target p => exact absurd hd (by simp [Declaration.path?])
  | sourceFiltered p filter =>
    obtain rfl : p = path := Option.some.inj hd
    rw [Draft.declare]
    split
    · next hfiltered =>
      obtain ⟨r, hr, hrpath, hrfilter⟩ := hasFilter_eq_true_iff.mp hfiltered
      rw [hrecords, List.mem_map] at hr
      obtain ⟨p', hp', rfl⟩ := hr
      obtain rfl : p' = p := (hpath p').symm.trans hrpath
      rw [hrecords, changeRecord_map hL hpath, if_pos hp']
      refine (hrecords.trans (List.map_congr_left fun q _ => ?_))
      split
      · next hq => rw [hq, augment_sourceFiltered_of_isSome hrfilter]
      · rfl
    · next hfiltered =>
      refine changeRecord_congr (fun r hr hrpath => ?_) (by simp [SourceRecord.augment])
      have hnone : r.filter = none := by
        by_contra hsome
        rw [← ne_eq, Option.ne_none_iff_isSome] at hsome
        exact hfiltered (hasFilter_eq_true_iff.mpr ⟨r, hr, hrpath, hsome⟩)
      simp [SourceRecord.augment, hnone]
  | source p | including p includes | includingFiltered p included filter | excluding p excludes
  | transforming p value transform =>
    obtain rfl : p = path := Option.some.inj hd
    refine congrArg (changeRecord p · b.spec.records) (funext fun r => ?_)
    simp [SourceRecord.augment, List.foldl_map]

/-- A declaration of the target is about no record. -/
lemma records_declare_of_none {d : Declaration} (hd : d.path? = none) (b : Draft) :
    (b.declare d).spec.records = b.spec.records := by
  cases d with
  | target path => rfl
  | source | sourceFiltered | including | includingFiltered | excluding | transforming =>
    exact absurd hd (by simp [Declaration.path?])

/-! ### All declarations -/

/-- One more declaration adds its source path unless it has been named before. -/
lemma paths_concat {d : Declaration} {path : String} (hd : d.path? = some path)
    (ds : List Declaration) : Declaration.paths (ds ++ [d]) = if path ∈ Declaration.paths ds then
      Declaration.paths ds else Declaration.paths ds ++ [path] := by
  have hlast : [d].filterMap Declaration.path? = [path] := by simp [hd]
  rw [Declaration.paths, List.filterMap_append, hlast, eraseDups_concat, Declaration.paths]
  simp only [List.mem_eraseDups]

/-- One more declaration is about its own path only. -/
lemma about_concat (path : String) (ds : List Declaration) (d : Declaration) :
    Declaration.about path (ds ++ [d])
      = if d.path? = some path then Declaration.about path ds ++ [d] else Declaration.about path ds := by
  rw [Declaration.about, List.filter_append, List.filter_singleton]
  split <;> simp_all [Declaration.about]

/-- The paths of declarations are those that one of them is about. -/
lemma mem_paths_iff {path : String} {ds : List Declaration} :
    path ∈ Declaration.paths ds ↔ ∃ d ∈ ds, d.path? = some path := by
  rw [Declaration.paths, List.mem_eraseDups, List.mem_filterMap]

/-- Nothing is declared about a path that is not mentioned. -/
lemma about_eq_nil {path : String} {ds : List Declaration} (h : path ∉ Declaration.paths ds) :
    Declaration.about path ds = [] := by
  rw [Declaration.about, List.filter_eq_nil_iff]
  intro d hd
  simpa using fun hpath => h (mem_paths_iff.mpr ⟨d, hd, hpath⟩)

/-- The records of a draft are those that the declarations make, whether or not one has been refused. -/
theorem records_draft (ds : List Declaration) :
    (draft ds).spec.records
      = (Declaration.paths ds).map fun p => .declaredBy p (Declaration.about p ds) := by
  induction ds using List.reverseRecOn with
  | nil => rfl
  | append_singleton ds d ih =>
    rw [draft_concat]
    cases hd : d.path? with
    | none =>
      have hpaths : Declaration.paths (ds ++ [d]) = Declaration.paths ds := by
        simp [Declaration.paths, hd]
      rw [records_declare_of_none hd, ih, hpaths]
      refine List.map_congr_left fun p _ => ?_
      rw [about_concat, hd, if_neg (by simp)]
    | some path =>
      have hnodup : (Declaration.paths ds).Nodup := nodup_eraseDups _
      rw [records_declare hd hnodup (fun _ => rfl) ih, paths_concat hd]
      split
      · refine List.map_congr_left fun p _ => ?_
        rw [about_concat, hd]
        by_cases hp : p = path
        · rw [if_pos hp, if_pos (congrArg some hp.symm), SourceRecord.declaredBy_concat]
        · rw [if_neg hp, if_neg fun h => hp (Option.some.inj h).symm]
      · next hnew =>
        rw [List.map_append, List.map_singleton, about_concat, hd, if_pos rfl,
          SourceRecord.declaredBy_concat, about_eq_nil hnew]
        refine congrArg (· ++ _) (List.map_congr_left fun p hp => ?_)
        rw [about_concat, hd, if_neg]
        rintro h
        exact hnew (Option.some.inj h ▸ hp)

/-! ### Refused declarations -/

/-- A declaration gives a filter for the path that it is about. -/
lemma filtered?_eq_some_iff {d : Declaration} {path : String} :
    d.filtered? = some path ↔ d.path? = some path ∧ d.filter?.isSome = true := by
  cases d <;> simp [Declaration.filtered?, Declaration.path?]

/-- Declarations make a record with a filter if one of them gives a filter. -/
lemma isSome_filter_declaredBy {path : String} {ds : List Declaration} :
    (SourceRecord.declaredBy path ds).filter.isSome = true ↔ ∃ d ∈ ds, d.filter?.isSome = true := by
  rw [SourceRecord.declaredBy, Option.isSome_iff_ne_none, ne_eq, List.head?_eq_none_iff,
    List.filterMap_eq_nil_iff]
  simp [Option.isSome_iff_ne_none]

/-- The source paths of a draft that have a filter are those that were given one. -/
lemma hasFilter_draft {ds : List Declaration} {path : String} :
    (draft ds).spec.hasFilter path = true ↔ path ∈ ds.filterMap Declaration.filtered? := by
  rw [hasFilter_eq_true_iff, records_draft, List.mem_filterMap]
  constructor
  · intro h
    obtain ⟨r, hr, rfl, hfilter⟩ := h
    obtain ⟨p, -, rfl⟩ := List.mem_map.mp hr
    obtain ⟨d, hd, hsome⟩ := isSome_filter_declaredBy.mp hfilter
    obtain ⟨hmem, hp⟩ := List.mem_filter.mp hd
    exact ⟨d, hmem, filtered?_eq_some_iff.mpr ⟨of_decide_eq_true hp, hsome⟩⟩
  · intro h
    obtain ⟨d, hmem, hd⟩ := h
    obtain ⟨hp, hsome⟩ := filtered?_eq_some_iff.mp hd
    have habout : d ∈ Declaration.about path ds := List.mem_filter.mpr ⟨hmem, decide_eq_true hp⟩
    exact ⟨_, List.mem_map_of_mem (mem_paths_iff.mpr ⟨d, hmem, hp⟩), rfl,
      isSome_filter_declaredBy.mpr ⟨d, habout, hsome⟩⟩

/-- The target of a draft is the one set last. -/
lemma target_draft (ds : List Declaration) :
    (draft ds).spec.target = (ds.filterMap Declaration.target?).getLast?.getD "" := by
  induction ds using List.reverseRecOn with
  | nil => rfl
  | append_singleton ds d ih =>
    rw [draft_concat, List.filterMap_append]
    cases d with
    | target path => simp [Declaration.target?, Draft.declare]
    | sourceFiltered path filter =>
      rw [Draft.declare]
      split <;> simpa [Declaration.target?, Draft.refuse, Draft.change] using ih
    | source | including | includingFiltered | excluding | transforming =>
      simpa [Declaration.target?, Draft.declare, Draft.change] using ih

/-- The error that refuses one more declaration. -/
def refusal? (ds : List Declaration) (d : Declaration) : Option PathError :=
  d.filtered?.bind fun path =>
    if path ∈ ds.filterMap Declaration.filtered? then
      some (.invalidOperation path Draft.secondFilter)
    else none

/-- The first refusal stands. -/
lemma error_draft_concat (ds : List Declaration) (d : Declaration) :
    (draft (ds ++ [d])).error = (draft ds).error.or (refusal? ds d) := by
  rw [draft_concat]
  cases d with
  | sourceFiltered path filter =>
    rw [Draft.declare, refusal?]
    simp only [hasFilter_draft, Declaration.filtered?, Option.bind_some]
    split <;> simp [Draft.refuse, Draft.change]
  | target | source | including | includingFiltered | excluding | transforming =>
    simp [Draft.declare, Draft.change, refusal?, Declaration.filtered?]

/-- A declaration is not refused if it gives no second filter for a path. -/
lemma refusal?_eq_none_iff {ds : List Declaration} {d : Declaration}
    (h : (ds.filterMap Declaration.filtered?).Nodup) :
    refusal? ds d = none ↔ ((ds ++ [d]).filterMap Declaration.filtered?).Nodup := by
  rw [List.filterMap_append]
  cases hd : d.filtered? with
  | none => simp [refusal?, hd, h]
  | some path =>
    have hlast : [d].filterMap Declaration.filtered? = [path] := by simp [hd]
    rw [hlast, ← List.concat_eq_append, List.nodup_concat, refusal?, hd, Option.bind_some]
    simp [h]

/-- A draft is without error exactly if no source path is given two filters. -/
lemma error_draft_eq_none_iff {ds : List Declaration} :
    (draft ds).error = none ↔ (ds.filterMap Declaration.filtered?).Nodup := by
  induction ds using List.reverseRecOn with
  | nil => simp [draft]
  | append_singleton ds d ih =>
    rw [error_draft_concat, Option.or_eq_none_iff, ih]
    constructor
    · intro h
      exact (refusal?_eq_none_iff h.1).mp h.2
    · intro h
      have hds : (ds.filterMap Declaration.filtered?).Nodup := by
        rw [List.filterMap_append] at h
        exact h.of_append_left
      exact ⟨hds, (refusal?_eq_none_iff hds).mpr h⟩

/-- Declarations of which one gives a source path a second filter, and none does before it. -/
def SecondFilter (ds : List Declaration) (path : String) : Prop :=
  ∃ before filter after, ds = before ++ .sourceFiltered path filter :: after
    ∧ (before.filterMap Declaration.filtered?).Nodup
    ∧ path ∈ before.filterMap Declaration.filtered?

/-- A declaration is refused if it gives a second filter for its path. -/
lemma refusal?_eq_some_iff {ds : List Declaration} {d : Declaration} {e : PathError} :
    refusal? ds d = some e ↔ ∃ path filter, d = .sourceFiltered path filter
      ∧ path ∈ ds.filterMap Declaration.filtered?
      ∧ e = .invalidOperation path Draft.secondFilter := by
  cases d with
  | sourceFiltered path filter =>
    rw [refusal?, Declaration.filtered?, Option.bind_some]
    split <;> simp_all [eq_comm]
  | target | source | including | includingFiltered | excluding | transforming =>
    simp [refusal?, Declaration.filtered?]

/-- An error of a draft stands whatever is declared after it. -/
lemma error_draft_append {ds : List Declaration} {e : PathError} (h : (draft ds).error = some e)
    (after : List Declaration) : (draft (ds ++ after)).error = some e := by
  induction after using List.reverseRecOn with
  | nil => simpa using h
  | append_singleton after d ih => rw [← List.append_assoc, error_draft_concat, ih, Option.some_or]

/-- The error of a draft names the first source path that is given a second filter. -/
lemma error_draft_eq_some_iff {ds : List Declaration} {e : PathError} :
    (draft ds).error = some e
      ↔ ∃ path, SecondFilter ds path ∧ e = .invalidOperation path Draft.secondFilter := by
  constructor
  · intro h
    induction ds using List.reverseRecOn with
    | nil => simp [draft] at h
    | append_singleton ds d ih =>
      rw [error_draft_concat, Option.or_eq_some_iff] at h
      -- either an earlier declaration was refused, and its error stands, or this one is the first
      cases h with
      | inl hbefore =>
        obtain ⟨path, ⟨before, filter, after, rfl, hsecond⟩, he⟩ := ih hbefore
        exact ⟨path, ⟨before, filter, after ++ [d], by simp, hsecond⟩, he⟩
      | inr hlast =>
        obtain ⟨path, filter, rfl, hmem, he⟩ := refusal?_eq_some_iff.mp hlast.2
        exact ⟨path, ⟨ds, filter, [], rfl, error_draft_eq_none_iff.mp hlast.1, hmem⟩, he⟩
  · intro h
    obtain ⟨path, ⟨before, filter, after, rfl, hbefore, hmem⟩, rfl⟩ := h
    have hsecond : (draft (before ++ [.sourceFiltered path filter])).error
        = some (.invalidOperation path Draft.secondFilter) := by
      rw [error_draft_concat, error_draft_eq_none_iff.mpr hbefore, Option.none_or,
        refusal?_eq_some_iff]
      exact ⟨path, filter, rfl, hmem, rfl⟩
    simpa using error_draft_append hsecond after

end CopySpec

/-! ### Declarations in another order -/

namespace Declaration

/-- Lists of declarations that differ by exchanges of neighbours which are not about the same source path. -/
inductive Reordered : List Declaration → List Declaration → Prop
  | refl (ds : List Declaration) : Reordered ds ds
  | exchange (before after : List Declaration) {d d' : Declaration} (h : d.path? ≠ d'.path?) :
    Reordered (before ++ d :: d' :: after) (before ++ d' :: d :: after)
  | trans {ds ds' ds'' : List Declaration} :
    Reordered ds ds' → Reordered ds' ds'' → Reordered ds ds''

namespace Reordered

variable {ds ds' : List Declaration}

/-- Declarations that have been reordered are the same ones. -/
lemma perm (h : Reordered ds ds') : ds.Perm ds' := by
  induction h with
  | refl ds => exact .refl ds
  | exchange before after h => exact .append_left before (.swap _ _ after)
  | trans _ _ ih ih' => exact ih.trans ih'

/-- What is said of one source path, and what is said of none, keeps its order. -/
lemma filter_eq (h : Reordered ds ds') (key : Option String) :
    ds.filter (fun d => d.path? = key) = ds'.filter fun d => d.path? = key := by
  induction h with
  | refl ds => rfl
  | @exchange before after d d' h =>
    rw [List.filter_append, List.filter_append]
    refine congrArg (before.filter (fun d => d.path? = key) ++ ·) ?_
    by_cases hd : d.path? = key
    · have hd' : d'.path? ≠ key := fun hd' => h (hd.trans hd'.symm)
      simp [hd, hd']
    · by_cases hd' : d'.path? = key <;> simp [hd, hd']
  | trans _ _ ih ih' => exact ih.trans ih'

/-- Reordering leaves the declarations about one path in their order. -/
lemma about_eq (h : Reordered ds ds') (path : String) : about path ds = about path ds' :=
  h.filter_eq (some path)

/-- Reordering leaves the declarations of the target in their order. -/
lemma target?_eq (h : Reordered ds ds') : ds.filterMap target? = ds'.filterMap target? := by
  have hfilter (ds : List Declaration) :
      ds.filterMap target? = (ds.filter fun d => d.path? = none).filterMap target? := by
    rw [List.filterMap_filter]
    refine List.filterMap_congr fun d _ => ?_
    cases d <;> simp [path?, target?]
  rw [hfilter ds, h.filter_eq none, ← hfilter ds']

end Reordered

end Declaration

namespace CopySpec

/-- Declarations that have been reordered have the same records in another order. -/
lemma perm_records_declaredBy {ds ds' : List Declaration} (h : Declaration.Reordered ds ds') :
    (declaredBy ds).records.Perm (declaredBy ds').records := by
  have hpaths : (Declaration.paths ds).Perm (Declaration.paths ds') := by
    refine (List.perm_ext_iff_of_nodup (nodup_eraseDups _) (nodup_eraseDups _)).mpr fun p => ?_
    rw [← Declaration.paths, ← Declaration.paths, mem_paths_iff, mem_paths_iff]
    simp only [h.perm.mem_iff]
  simp only [declaredBy, h.about_eq]
  exact hpaths.map _

/-- **What declarations make of a copy spec.**  The spec is built unless a source path is given a second
filter, and then it is what the declarations declare: one record for every source path, made of the
declarations about it alone.  Otherwise the error names the source path that is first given a second filter.
Declarations in another order, if those about the same source path keep theirs, are accepted or refused alike,
and make the same records in another order. -/
theorem build_eq_declaredBy (ds : List Declaration) :
    (∀ spec, build ds = .ok spec
      ↔ (ds.filterMap Declaration.filtered?).Nodup ∧ spec = declaredBy ds)
    ∧ (∀ e, build ds = .error e
      ↔ ∃ path, SecondFilter ds path ∧ e = .invalidOperation path Draft.secondFilter)
    ∧ ∀ ds', Declaration.Reordered ds ds' →
      ((∃ spec, build ds = .ok spec) ↔ ∃ spec', build ds' = .ok spec')
      ∧ ∀ spec spec', build ds = .ok spec → build ds' = .ok spec' →
        spec.target = spec'.target ∧ spec.records.Perm spec'.records := by
  have hspec (ds : List Declaration) : (draft ds).spec = declaredBy ds := by
    refine (CopySpec.mk.injEq ..).mpr ⟨target_draft ds, records_draft ds⟩
  have hok (ds : List Declaration) (spec : CopySpec) : build ds = .ok spec
      ↔ (ds.filterMap Declaration.filtered?).Nodup ∧ spec = declaredBy ds := by
    rw [← error_draft_eq_none_iff, ← hspec, build, ← draft, Draft.finish]
    cases (draft ds).error with
    | none => simp [eq_comm]
    | some e => simp
  have herror (e : PathError) : build ds = .error e
      ↔ ∃ path, SecondFilter ds path ∧ e = .invalidOperation path Draft.secondFilter := by
    rw [← error_draft_eq_some_iff, build, ← draft, Draft.finish]
    cases (draft ds).error <;> simp
  refine ⟨hok ds, herror, fun ds' h => ⟨?_, fun spec spec' hs hs' => ?_⟩⟩
  · have hperm := (h.perm.filterMap Declaration.filtered?).nodup_iff
    simp only [hok, hperm, exists_and_left, exists_eq, and_true]
  · obtain ⟨-, rfl⟩ := (hok ds spec).mp hs
    obtain ⟨-, rfl⟩ := (hok ds' spec').mp hs'
    exact ⟨congrArg (·.getLast?.getD "") h.target?_eq, perm_records_declaredBy h⟩

/-- What is said of the whole source stays in its order while the filter of `/a` comes first: the same two
records are made, in another order, and the filter given to `/x` last is the one that counts. -/
theorem build_eq_declaredBy_exchange : ∃ ds ds' : List Declaration,
    Declaration.Reordered ds ds' ∧ ∃ spec spec', build ds = .ok spec ∧ build ds' = .ok spec'
      ∧ spec.target = spec'.target ∧ spec.records.Perm spec'.records
      ∧ spec.records = [⟨"", none, [("/x", some (.ownText "v")), ("/y", none)], ["/z", "/z"], []⟩,
        ⟨"/a", some (.ofKind "map"), [], [], []⟩]
      ∧ spec'.records.map SourceRecord.path = ["/a", ""] := by
  have hreordered : Declaration.Reordered
      [.includingRoot ["/x", "/y"], .sourceFiltered "/a" (.ofKind "map"),
        .includingRootFiltered "/x" (.ownText "v"), .excludingRoot ["/z", "/z"], .target "/t"]
      [.sourceFiltered "/a" (.ofKind "map"), .includingRoot ["/x", "/y"],
        .includingRootFiltered "/x" (.ownText "v"), .excludingRoot ["/z", "/z"], .target "/t"] :=
    .exchange [] _ (by decide)
  have hsame := ((build_eq_declaredBy _).2.2 _ hreordered).2 _ _ rfl rfl
  exact ⟨_, _, hreordered, _, _, rfl, rfl, hsame.1, hsame.2, rfl, rfl⟩

end CopySpec

end DocumentPath
