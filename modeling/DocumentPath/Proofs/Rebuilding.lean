import Mathlib
import DocumentPath.Proofs.UniformPruning

/-!
# Trees rebuilt from the leaves up

`Tree.rebuild f marked t` rebuilds `t` from the leaves up and replaces every node whose location in `t` is
marked, as it then stands, by its image under `f`.  The partial function `f` is asked once for each marked
location, and the rebuilding fails if one of the images does.  What is marked is said of the locations of
`t`, so nothing inside an image is replaced.

Rebuilding a node means to rebuild its children under their segments and then to replace the node itself,
if it is marked (`rebuild_eq`).  Changing the children in one way and then in another is changing each of
them in both ways (`mapChildren?_bind`), and a change of the child under one segment is a change of all
children that leaves the others alone (`mapChildren?_only`).
-/

namespace DocumentPath

namespace Tree

/-! ### Partial changes of the children -/

section MapM

variable {α β γ : Type*}

/-- A partial function goes through a list from its head. -/
lemma mapM_cons_eq (g : α → Option β) (a : α) (l : List α) :
    (a :: l).mapM g = (g a).bind fun b => (l.mapM g).map (b :: ·) := by
  rw [List.mapM_cons]
  cases g a with
  | none => rfl
  | some b => cases l.mapM g <;> rfl

/-- Where a partial function goes through, it has as many results. -/
lemma length_of_mapM {g : α → Option β} {l : List α} {r : List β} (h : l.mapM g = some r) :
    l.length = r.length := by
  induction l generalizing r with
  | nil => exact congrArg List.length (Option.some.inj h)
  | cons a l ih =>
    rw [mapM_cons_eq, Option.bind_eq_some_iff] at h
    obtain ⟨b, -, h⟩ := h
    obtain ⟨r, hr, rfl⟩ := Option.map_eq_some_iff.mp h
    rw [List.length_cons, List.length_cons, ih hr]

/-- A partial function may be replaced by one with the same results on the list. -/
lemma mapM_congr {g h : α → Option β} {l : List α} (hl : ∀ a ∈ l, g a = h a) :
    l.mapM g = l.mapM h := by
  induction l with
  | nil => rfl
  | cons a l ih =>
    rw [List.forall_mem_cons] at hl
    rw [mapM_cons_eq, mapM_cons_eq, hl.1, ih hl.2]

/-- A partial function does not go through if it fails on one element. -/
lemma mapM_eq_none {g : α → Option β} {a : α} (ha : g a = none) {l : List α} (hl : a ∈ l) :
    l.mapM g = none := by
  induction l with
  | nil => exact absurd hl List.not_mem_nil
  | cons b l ih =>
    rw [mapM_cons_eq]
    rcases List.mem_cons.mp hl with rfl | hl
    · rw [ha, Option.bind_none]
    · rw [ih hl]
      exact Option.bind_fun_none _

/-- Two partial changes of what stands under some keys, one after the other. -/
lemma mapM_zip {κ : Type*} (g : κ → α → Option β) (h : κ → β → Option γ) (l : List (κ × α)) :
    ((l.mapM fun m => g m.1 m.2).bind fun r => ((l.map Prod.fst).zip r).mapM fun m => h m.1 m.2)
      = l.mapM fun m => (g m.1 m.2).bind (h m.1) := by
  induction l with
  | nil => rfl
  | cons m l ih =>
    rw [mapM_cons_eq, mapM_cons_eq, ← ih]
    cases g m.1 m.2 with
    | none => rfl
    | some b =>
      cases l.mapM fun m => g m.1 m.2 with
      | none => exact (Option.bind_fun_none _).symm
      | some r => exact mapM_cons_eq _ _ _

end MapM

/-- A container with other children in the place of its own. -/
def withChildren : Tree → List Tree → Tree
  | .array _, cs => .array cs
  | .map fields, cs => .map ((fields.map Prod.fst).zip cs)
  | t, _ => t

/-- A node with each child replaced by its image under a partial function, which also gets the segment of
the child. -/
def mapChildren? (g : Segment → Tree → Option Tree) (t : Tree) : Option Tree :=
  (t.members.mapM fun m => g m.1 m.2).map t.withChildren

/-- Other children do not change the kind of a node. -/
lemma kind_withChildren (t : Tree) (cs : List Tree) : (t.withChildren cs).kind = t.kind := by
  cases t <;> rfl

/-- The new children stand under the segments of the old ones. -/
lemma members_withChildren {t : Tree} {cs : List Tree} (h : t.members.length = cs.length) :
    (t.withChildren cs).members = (t.members.map Prod.fst).zip cs := by
  cases t with
  | array items =>
    have hlen : items.length = cs.length := by simpa [members] using h
    refine List.ext_getElem (by simp [withChildren, members, hlen]) fun i _ _ => ?_
    simp [withChildren, members]
  | map fields =>
    have hlen : fields.length = cs.length := by simpa [members] using h
    refine List.ext_getElem (by simp [withChildren, members]) fun i _ _ => ?_
    simp [withChildren, members]
  | null | bool | number | text => rfl

/-- Of two replacements of the children the second counts. -/
lemma withChildren_withChildren {t : Tree} {cs : List Tree} (h : t.members.length = cs.length) :
    (t.withChildren cs).withChildren = t.withChildren := by
  cases t with
  | map fields =>
    have hlen : (fields.map Prod.fst).length = cs.length := by simpa [members] using h
    funext ds
    rw [withChildren, withChildren, List.map_fst_zip hlen.le, withChildren]
  | array | null | bool | number | text => rfl

/-- As many children keep a node sound. -/
lemma sound_withChildren {t : Tree} (ht : t.Sound) {cs : List Tree}
    (h : t.members.length = cs.length) : (t.withChildren cs).Sound := by
  cases t with
  | array items =>
    have hlen : items.length = cs.length := by simpa [members] using h
    exact hlen.ge.trans ht
  | map fields =>
    have hlen : (fields.map Prod.fst).length = cs.length := by simpa [members] using h
    have hkeys : ((fields.map Prod.fst).zip cs).map Prod.fst = fields.map Prod.fst :=
      List.map_fst_zip hlen.le
    exact (congrArg List.Nodup hkeys).mpr ht
  | null | bool | number | text => exact trivial

/-- With one child replaced, the other children are kept. -/
lemma withChildren_putChild {t : Tree} (ht : t.Sound) (s : Segment) (v : Tree) :
    t.withChildren (t.members.map fun m => if m.1 = s then v else m.2) = t.putChild s v := by
  cases hcontainer : t.isContainer with
  | false =>
    cases t with
    | array | map => exact absurd hcontainer (by simp [isContainer, kind, Kind.isContainer])
    | null | bool | number | text => rfl
  | true =>
    refine eq_of_members (by rw [kind_withChildren, kind_putChild]) ?_ ?_
    · rwa [isContainer, kind_withChildren]
    · rw [members_withChildren (by simp), members_putChild ht, List.zip_map']

/-- A node with its own children is itself. -/
lemma withChildren_children (t : Tree) : t.withChildren t.children = t := by
  cases t with
  | map fields =>
    rw [withChildren, children, List.zip_map']
    exact congrArg Tree.map (List.map_id fields)
  | array | null | bool | number | text => rfl

/-- A partial function of the children may be replaced by one with the same results on them. -/
lemma mapChildren?_congr {g h : Segment → Tree → Option Tree} {t : Tree}
    (hmembers : ∀ m ∈ t.members, g m.1 m.2 = h m.1 m.2) : t.mapChildren? g = t.mapChildren? h := by
  rw [mapChildren?, mapChildren?, mapM_congr hmembers]

/-- Changing the children keeps a node sound. -/
lemma sound_of_mapChildren? {g : Segment → Tree → Option Tree} {t t' : Tree} (ht : t.Sound)
    (h : t.mapChildren? g = some t') : t'.Sound := by
  obtain ⟨cs, hcs, rfl⟩ := Option.map_eq_some_iff.mp h
  exact sound_withChildren ht (length_of_mapM hcs)

/-- Where every child is left alone, so is the node. -/
lemma mapChildren?_eq_self {g : Segment → Tree → Option Tree} {t : Tree}
    (hmembers : ∀ m ∈ t.members, g m.1 m.2 = some m.2) : t.mapChildren? g = some t := by
  have hsame : (t.members.mapM fun m => some m.2) = some (t.members.map Prod.snd) := List.mapM_pure
  rw [mapChildren?, mapM_congr hmembers, hsame, Option.map_some, map_snd_members,
    withChildren_children]

/-- Changing the children in one way and then in another changes each of them in both ways. -/
theorem mapChildren?_bind (g h : Segment → Tree → Option Tree) (t : Tree) :
    (t.mapChildren? g).bind (mapChildren? h) = t.mapChildren? fun s c => (g s c).bind (h s) := by
  have hthen : ∀ cs, (t.members.mapM fun m => g m.1 m.2) = some cs →
      (t.withChildren cs).mapChildren? h
        = (((t.members.map Prod.fst).zip cs).mapM fun m => h m.1 m.2).map t.withChildren := by
    intro cs hcs
    have hlen := length_of_mapM hcs
    rw [mapChildren?, members_withChildren hlen, withChildren_withChildren hlen]
  rw [mapChildren?, mapChildren?, ← mapM_zip, Option.map_bind, Option.bind_map]
  cases hcs : t.members.mapM fun m => g m.1 m.2 with
  | none => rfl
  | some cs => exact hthen cs hcs

/-- A change of the child under one segment, the others being left alone. -/
theorem mapChildren?_only {t : Tree} (ht : t.Sound) (s : Segment) (g : Tree → Option Tree) :
    t.mapChildren? (fun s' c => if s' = s then g c else some c)
      = (t.child? s).elim (some t) fun c => (g c).map (t.putChild s) := by
  cases hc : t.child? s with
  | none =>
    refine mapChildren?_eq_self fun m hm => if_neg ?_
    rintro rfl
    rw [(mem_members_iff ht).mp hm] at hc
    exact absurd hc (by simp)
  | some c =>
    have hmembers : ∀ m ∈ t.members, m.1 = s → m.2 = c := by
      rintro ⟨s', c'⟩ hm rfl
      exact Option.some.inj (((mem_members_iff ht).mp hm).symm.trans hc)
    rw [Option.elim_some]
    cases hv : g c with
    | none =>
      rw [mapChildren?, mapM_eq_none (by simpa using hv) ((mem_members_iff ht).mpr hc)]
      rfl
    | some v =>
      have hput : (t.members.mapM fun m => some (if m.1 = s then v else m.2))
          = some (t.members.map fun m => if m.1 = s then v else m.2) := List.mapM_pure
      rw [Option.map_some, ← withChildren_putChild ht, ← Option.map_some, ← hput]
      refine congrArg _ (mapM_congr fun m hm => ?_)
      by_cases hs : m.1 = s
      · simp only [if_pos hs, hmembers m hm hs, hv]
      · simp only [if_neg hs]

/-! ### Changes along the list of the children -/

/-- A change of the fields is one of their values, and leaves the keys alone. -/
lemma changeFields_eq {ε : Type} (g : Tree → Outcome ε) (fields : List (String × Tree)) :
    changeFields g fields = ((fields.map Prod.fst).zip (changeItems g (fields.map Prod.snd)).1,
      (changeItems g (fields.map Prod.snd)).2) := by
  induction fields with
  | nil => rfl
  | cons e rest ih =>
    obtain ⟨k, t⟩ := e
    have hrest : (rest.map Prod.fst).zip (rest.map Prod.snd) = rest := by
      rw [List.zip_map']
      exact List.map_id rest
    rw [changeFields, ih, List.map_cons, List.map_cons, changeItems]
    cases (g t).error with
    | some e => rw [List.zip_cons_cons, hrest]
    | none => rfl

/-- A change of the children goes along their list. -/
theorem changeChildren_eq {ε : Type} (g : Tree → Outcome ε) (t : Tree) : changeChildren g t
    = ⟨t.withChildren (changeItems g t.children).1, (changeItems g t.children).2⟩ := by
  cases t with
  | array items => rfl
  | map fields => rw [changeChildren, changeFields_eq]; rfl
  | null | bool | number | text => rfl

/-- Replacing the children by their images maps them. -/
lemma withChildren_map (f : Tree → Tree) (t : Tree) :
    t.withChildren (t.children.map f) = t.mapChildren f := by
  cases t with
  | array items => rfl
  | map fields => rw [children, withChildren, List.map_map, List.zip_map']; rfl
  | null | bool | number | text => rfl

/-! ### Rebuilding -/

mutual

/-- The tree rebuilt from the leaves up, each node at a marked location replaced by its image. -/
def rebuild (f : Tree → Option Tree) : (List Segment → Bool) → Tree → Option Tree
  | marked, .array items => do
    let items ← rebuildItems f marked 0 items
    if marked [] then f (.array items) else some (.array items)
  | marked, .map fields => do
    let fields ← rebuildFields f marked fields
    if marked [] then f (.map fields) else some (.map fields)
  | marked, t => if marked [] then f t else some t

/-- The items of an array, rebuilt; the first of them stands at index `i`. -/
def rebuildItems (f : Tree → Option Tree) :
    (List Segment → Bool) → ℕ → List Tree → Option (List Tree)
  | _, _, [] => some []
  | marked, i, t :: rest => do
    let t ← rebuild f (fun q => marked (.ofIndex i :: q)) t
    let rest ← rebuildItems f marked (i + 1) rest
    some (t :: rest)

/-- The fields of a map, rebuilt. -/
def rebuildFields (f : Tree → Option Tree) :
    (List Segment → Bool) → List (String × Tree) → Option (List (String × Tree))
  | _, [] => some []
  | marked, (k, t) :: rest => do
    let t ← rebuild f (fun q => marked (⟨k⟩ :: q)) t
    let rest ← rebuildFields f marked rest
    some ((k, t) :: rest)

end

variable {f : Tree → Option Tree} {marked : List Segment → Bool}

/-- The items of an array are rebuilt one by one, each under its index. -/
lemma rebuildItems_eq (i : ℕ) (items : List Tree) : rebuildItems f marked i items
    = ((items.zipIdx i).map fun (t, j) => (Segment.ofIndex j, t)).mapM
        fun m => m.2.rebuild f fun q => marked (m.1 :: q) := by
  induction items generalizing i with
  | nil => rfl
  | cons t rest ih =>
    rw [rebuildItems, ih, List.zipIdx_cons, List.map_cons, mapM_cons_eq]
    refine Option.bind_congr fun t _ => ?_
    exact (Option.map_eq_bind).symm

/-- The fields of a map are rebuilt one by one, each under its key. -/
lemma rebuildFields_eq (fields : List (String × Tree)) : rebuildFields f marked fields
    = ((fields.map fun (k, t) => ((⟨k⟩ : Segment), t)).mapM
        fun m : Segment × Tree => m.2.rebuild f fun q => marked (m.1 :: q)).map
          (fields.map Prod.fst).zip := by
  induction fields with
  | nil => rfl
  | cons e rest ih =>
    obtain ⟨k, t⟩ := e
    rw [rebuildFields, ih, List.map_cons, List.map_cons, mapM_cons_eq, Option.map_bind]
    refine Option.bind_congr fun t _ => ?_
    cases (rest.map fun (k, t) => ((⟨k⟩ : Segment), t)).mapM
        fun m : Segment × Tree => m.2.rebuild f fun q => marked (m.1 :: q) <;> rfl

/-- A node is rebuilt after its children. -/
theorem rebuild_eq (t : Tree) : t.rebuild f marked
    = (t.mapChildren? fun s c => c.rebuild f fun q => marked (s :: q)).bind
        fun t' => if marked [] then f t' else some t' := by
  cases t with
  | array items =>
    rw [rebuild, rebuildItems_eq, mapChildren?, Option.bind_map]
    rfl
  | map fields =>
    rw [rebuild, rebuildFields_eq, mapChildren?, Option.bind_map]
    change (Option.map _ _).bind _ = _
    rw [Option.bind_map]
    rfl
  | null | bool | number | text => rfl

/-- An unmarked node is changed by what is marked below it only. -/
lemma rebuild_of_unmarked (h : marked [] = false) (t : Tree) : t.rebuild f marked
    = t.mapChildren? fun s c => c.rebuild f fun q => marked (s :: q) := by
  simp [rebuild_eq t, h]

/-- Where nothing is marked, nothing is changed. -/
theorem rebuild_eq_self (h : ∀ q, marked q = false) (t : Tree) : t.rebuild f marked = some t := by
  induction t using byChildren generalizing marked with
  | step t ih =>
    rw [rebuild_of_unmarked (h [])]
    exact mapChildren?_eq_self fun m hm =>
      ih m.2 (mem_children_of_mem_members hm) fun q => h (m.1 :: q)

end Tree

end DocumentPath
