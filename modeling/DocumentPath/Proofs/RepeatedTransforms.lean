import Mathlib
import DocumentPath.Proofs.Conservation
import DocumentPath.Proofs.IntegralParts
import DocumentPath.Proofs.StepRemovals
import DocumentPath.Proofs.Transforms
import DocumentPath.Proofs.UntouchedLocations

/-!
# Transforms run twice

A transform that leaves its own images alone may be run twice through any selector: where the first run
succeeds, the second one succeeds as well and changes nothing (`Selector.apply_again`).  The coercing
conversions are of this kind (`Conversion.stabilizing_apply`).

With several descents one run transforms a location several times, and what it does at one location stands
below others.  The invariant that a run leaves behind is `Stage.Settled`: every match of the stages is left
alone by the transform.  Since images are put in the place of nodes without children, no step of a run
unsettles anything, whatever the stages (`Stage.Keeps`).
-/

namespace DocumentPath

/-- A transform of nodes without children that leaves its own images alone. -/
structure Stabilizing (f : Tree → Except PathError Tree) : Prop where
  childless : ∀ {t t'}, f t = .ok t' → t.children = []
  again : ∀ {t t'}, f t = .ok t' → f t' = .ok t'

namespace Tree

variable {ε : Type} {g : Tree → Outcome ε}

/-! ### Changes of the children that succeed -/

/-- A change that succeeds on every item changes them all. -/
lemma changeItems_of_ok {items : List Tree} (h : ∀ c ∈ items, (g c).error = none) :
    changeItems g items = (items.map fun c => (g c).tree, none) := by
  induction items with
  | nil => rfl
  | cons c rest ih =>
    rw [List.forall_mem_cons] at h
    rw [changeItems, h.1, ih h.2]
    rfl

/-- A change of all items that succeeds has succeeded on each of them. -/
lemma error_of_changeItems {items : List Tree} (h : (changeItems g items).2 = none) :
    ∀ c ∈ items, (g c).error = none := by
  induction items with
  | nil => exact nofun
  | cons c rest ih =>
    rw [changeItems] at h
    cases hc : (g c).error with
    | some e => exact absurd h (by simp [hc])
    | none =>
      rw [hc] at h
      exact List.forall_mem_cons.mpr ⟨hc, ih h⟩

/-- A change that succeeds on every child changes each of them. -/
lemma changeChildren_of_ok {t : Tree} (h : ∀ c ∈ t.children, (g c).error = none) :
    changeChildren g t = .ok (t.mapChildren fun c => (g c).tree) := by
  rw [changeChildren_eq, changeItems_of_ok h, withChildren_map, Outcome.ok]

/-- A change of the children that succeeds has succeeded on every child. -/
lemma error_of_changeChildren {t : Tree} (h : (changeChildren g t).error = none) :
    ∀ c ∈ t.children, (g c).error = none := by
  rw [changeChildren_eq] at h
  exact error_of_changeItems h

/-- A change that leaves every child alone leaves the node alone. -/
lemma changeChildren_eq_self {t : Tree} (h : ∀ c ∈ t.children, g c = .ok c) :
    changeChildren g t = .ok t := by
  have hsame : t.children.map (fun c => (g c).tree) = t.children := by
    refine (List.map_congr_left fun c hc => ?_).trans (List.map_id t.children)
    rw [h c hc]
    rfl
  rw [changeChildren_of_ok fun c hc => by rw [h c hc]; rfl, ← withChildren_map, hsame,
    withChildren_children]

end Tree

namespace Stage

variable {f : Tree → Except PathError Tree} {rest : List Stage} {t t' : Tree}

/-! ### Settled matches -/

/-- Every match is left alone by the transform. -/
def Settled (f : Tree → Except PathError Tree) (stages : List Stage) (t : Tree) : Prop :=
  ∀ c ∈ Stage.matches stages t, f c = .ok c

lemma settled_nil : Settled f [] t := nofun

/-- A tree is settled for the terminal stage if it is its own image. -/
lemma settled_terminal_iff : Settled f (.terminal :: rest) t ↔ f t = .ok t := by
  rw [Settled, Stage.matches, List.forall_mem_singleton]

/-- A tree is settled for a literal if the node at its pointer is. -/
lemma settled_literal_iff {p : Pointer} :
    Settled f (.literal p :: rest) t ↔ ∀ c, t.at? p.segments = some c → Settled f rest c := by
  rw [Settled, Stage.matches, Pointer.at?]
  cases t.at? p.segments with
  | none => simp
  | some c => simp [Settled]

/-- A tree is settled for a wildcard if its children are. -/
lemma settled_wildcard_iff :
    Settled f (.wildcard :: rest) t ↔ ∀ c ∈ t.children, Settled f rest c := by
  simp only [Settled, Stage.matches, List.mem_flatMap]
  constructor
  · intro h c hc u hu
    exact h u ⟨c, hc, hu⟩
  · rintro h u ⟨c, hc, hu⟩
    exact h c hc u hu

/-- A tree is settled for a descent if it and its children are. -/
lemma settled_descent_iff : Settled f (.descent :: rest) t ↔
    (∀ c ∈ t.children, Settled f (.descent :: rest) c) ∧ Settled f rest t := by
  have hmatches : Stage.matches (.descent :: rest) t = Stage.matches rest t
      ++ t.children.flatMap (Stage.matches (.descent :: rest)) := by
    rw [Stage.matches, Tree.nodes_eq, List.flatMap_cons, List.flatMap_assoc]
    rfl
  have hchildren : Settled f (.wildcard :: .descent :: rest) t ↔ _ := settled_wildcard_iff
  rw [Settled, hmatches, List.forall_mem_append, ← hchildren, and_comm]
  rfl

/-- A run on a tree where every match is settled changes nothing. -/
theorem apply_of_settled {stages : List Stage} (h : Settled f stages t) :
    Stage.apply f stages t = .ok t := by
  induction stages generalizing t with
  | nil => rfl
  | cons stage rest ih =>
    cases stage with
    | terminal =>
      rw [Stage.apply, settled_terminal_iff.mp h]
      rfl
    | literal p =>
      rw [Stage.apply, Pointer.at?]
      cases hc : t.at? p.segments with
      | none => rfl
      | some c =>
        simp only
        rw [ih (settled_literal_iff.mp h c hc)]
        exact congrArg Outcome.ok (Tree.putAt_self hc)
    | wildcard =>
      exact Tree.changeChildren_eq_self fun c hc => ih (settled_wildcard_iff.mp h c hc)
    | descent =>
      change Tree.changeUp (Stage.apply f rest) t = .ok t
      induction t using Tree.byChildren with
      | step t ihTree =>
        obtain ⟨hbelow, hself⟩ := settled_descent_iff.mp h
        rw [Tree.changeUp_eq, Tree.changeChildren_eq_self fun c hc => ihTree c hc (hbelow c hc)]
        exact ih hself

/-! ### What changes keep settled -/

/-- What is settled in `t` is settled in `t'`, for all stages. -/
def Keeps (f : Tree → Except PathError Tree) (t t' : Tree) : Prop :=
  ∀ stages, Settled f stages t → Settled f stages t'

/-- A tree keeps what is settled in itself. -/
lemma Keeps.refl (t : Tree) : Keeps f t t := fun _ h => h

/-- What two changes keep settled they keep settled together. -/
lemma Keeps.trans {t'' : Tree} (h : Keeps f t t') (h' : Keeps f t' t'') : Keeps f t t'' :=
  fun stages hs => h' stages (h stages hs)

/-- In a node without children only the node itself can be a match. -/
lemma settled_of_childless (ht : t.children = []) (h : f t = .ok t) (stages : List Stage) :
    Settled f stages t := by
  induction stages with
  | nil => exact settled_nil
  | cons stage rest ih =>
    cases stage with
    | terminal => exact settled_terminal_iff.mpr h
    | literal p =>
      rw [settled_literal_iff]
      intro c hc
      cases hp : p.segments with
      | nil =>
        rw [hp] at hc
        rwa [← Option.some.inj hc]
      | cons s q =>
        rw [hp, Tree.at?_cons, Tree.child?_of_childless ht] at hc
        exact absurd hc (by simp)
    | wildcard =>
      rw [settled_wildcard_iff, ht]
      exact nofun
    | descent =>
      rw [settled_descent_iff, ht]
      exact ⟨nofun, ih⟩

/-- Replacing a node by its image unsettles nothing. -/
lemma keeps_image (hf : Stabilizing f) (h : f t = .ok t') : Keeps f t t' :=
  fun stages _ => settled_of_childless (hf.childless (hf.again h)) (hf.again h) stages

/-- A node whose children have been changed, each without unsettling anything. -/
theorem keeps_of_children (hroot : f t = .ok t → f t' = .ok t')
    (hmem : ∀ c' ∈ t'.children, ∃ c ∈ t.children, Keeps f c c')
    (hchild : ∀ s c', t'.child? s = some c' → ∃ c, t.child? s = some c ∧ Keeps f c c') :
    Keeps f t t' := by
  intro stages h
  induction stages with
  | nil => exact settled_nil
  | cons stage rest ih =>
    cases stage with
    | terminal => exact settled_terminal_iff.mpr (hroot (settled_terminal_iff.mp h))
    | literal p =>
      rw [settled_literal_iff] at h ⊢
      intro u hu
      obtain ⟨p⟩ := p
      cases p with
      | nil =>
        rw [← Option.some.inj hu]
        exact ih (h t rfl)
      | cons s q =>
        -- below a child the rest of the literal is a stage of its own
        obtain ⟨c', hc', hu⟩ := Tree.at?_cons_eq_some_iff.mp hu
        obtain ⟨c, hc, hkeeps⟩ := hchild s c' hc'
        have hbelow : Settled f (.literal ⟨q⟩ :: rest) c := settled_literal_iff.mpr
          fun v hv => h v (Tree.at?_cons_eq_some_iff.mpr ⟨c, hc, hv⟩)
        exact settled_literal_iff.mp (hkeeps _ hbelow) u hu
    | wildcard =>
      rw [settled_wildcard_iff] at h ⊢
      intro c' hc'
      obtain ⟨c, hc, hkeeps⟩ := hmem c' hc'
      exact hkeeps _ (h c hc)
    | descent =>
      rw [settled_descent_iff] at h ⊢
      refine ⟨fun c' hc' => ?_, ih h.2⟩
      obtain ⟨c, hc, hkeeps⟩ := hmem c' hc'
      exact hkeeps _ (h.1 c hc)

/-- Mapping the children keeps settled what the map does. -/
lemma keeps_mapChildren (hf : Stabilizing f) {g : Tree → Tree} (h : ∀ c ∈ t.children, Keeps f c (g c)) :
    Keeps f t (t.mapChildren g) := by
  refine keeps_of_children (fun hroot => ?_) (fun c' hc' => ?_) fun s c' hc' => ?_
  · rwa [Tree.mapChildren_of_childless (hf.childless hroot)]
  · rw [Tree.children_mapChildren] at hc'
    obtain ⟨c, hc, rfl⟩ := List.mem_map.mp hc'
    exact ⟨c, hc, h c hc⟩
  · rw [Tree.child?_mapChildren] at hc'
    obtain ⟨c, hc, rfl⟩ := Option.map_eq_some_iff.mp hc'
    exact ⟨c, hc, h c (Tree.mem_children_of_child? hc)⟩

/-- Putting a child back keeps settled what the change of the child does. -/
lemma keeps_putChild (hf : Stabilizing f) {s : Segment} {c v : Tree} (hc : t.child? s = some c)
    (h : Keeps f c v) : Keeps f t (t.putChild s v) := by
  refine keeps_of_children (fun hroot => ?_) (fun c' hc' => ?_) fun s' c' hc' => ?_
  · have hnone := Tree.child?_of_childless (hf.childless hroot) s
    exact absurd (hnone.symm.trans hc) (by simp)
  · have hmem := (Tree.children_putChild hc v).2.subset (List.mem_cons_of_mem c hc')
    rcases List.mem_cons.mp hmem with rfl | hmem
    · exact ⟨c, Tree.mem_children_of_child? hc, h⟩
    · exact ⟨c', hmem, .refl c'⟩
  · by_cases hs : s' = s
    · subst hs
      rw [Tree.child?_putChild_self hc] at hc'
      exact ⟨c, hc, Option.some.inj hc' ▸ h⟩
    · rw [Tree.child?_putChild_of_ne t hs] at hc'
      exact ⟨c', hc', .refl c'⟩

/-- Putting a node back keeps settled what the change of the node does. -/
lemma keeps_putAt (hf : Stabilizing f) {p : List Segment} {c v : Tree} (hc : t.at? p = some c)
    (h : Keeps f c v) : Keeps f t (t.putAt p v) := by
  induction p generalizing t with
  | nil => rwa [Option.some.inj hc]
  | cons s rest ih =>
    obtain ⟨c', hc', hrest⟩ := Tree.at?_cons_eq_some_iff.mp hc
    rw [Tree.putAt_cons hc']
    exact keeps_putChild hf hc' (ih hrest)

/-! ### Runs -/

/-- A run that succeeds settles its matches and unsettles nothing. -/
theorem settled_apply (hf : Stabilizing f) {stages : List Stage}
    (h : (Stage.apply f stages t).error = none) :
    Settled f stages (Stage.apply f stages t).tree ∧ Keeps f t (Stage.apply f stages t).tree := by
  induction stages generalizing t with
  | nil => exact ⟨settled_nil, .refl t⟩
  | cons stage rest ih =>
    cases stage with
    | terminal =>
      rw [Stage.apply] at h ⊢
      cases himage : f t with
      | error e => exact absurd h (by simp [himage, Outcome.ofExcept, Outcome.fail])
      | ok t' => exact ⟨settled_terminal_iff.mpr (hf.again himage), keeps_image hf himage⟩
    | literal p =>
      rw [Stage.apply, Pointer.at?] at h ⊢
      cases hc : t.at? p.segments with
      | none =>
        refine ⟨settled_literal_iff.mpr fun c hc' => ?_, .refl t⟩
        exact absurd (hc.symm.trans hc') (by simp)
      | some c =>
        rw [hc] at h
        obtain ⟨hsettled, hkeeps⟩ := ih (t := c) h
        refine ⟨settled_literal_iff.mpr fun c' hc' => ?_, keeps_putAt hf hc hkeeps⟩
        have hput := Tree.at?_putAt hc (Stage.apply f rest c).tree []
        rw [List.append_nil] at hput
        rwa [← Option.some.inj (hput.symm.trans hc')]
    | wildcard =>
      have hok := Tree.error_of_changeChildren (g := Stage.apply f rest) h
      have hrun : Stage.apply f (.wildcard :: rest) t = _ := Tree.changeChildren_of_ok hok
      rw [hrun]
      refine ⟨settled_wildcard_iff.mpr fun c' hc' => ?_,
        keeps_mapChildren hf fun c hc => (ih (hok c hc)).2⟩
      obtain ⟨c, hc, rfl⟩ := List.mem_map.mp (Tree.children_mapChildren _ t ▸ hc')
      exact (ih (hok c hc)).1
    | descent =>
      change (Tree.changeUp (Stage.apply f rest) t).error = none at h
      change Settled f _ (Tree.changeUp (Stage.apply f rest) t).tree ∧
        Keeps f t (Tree.changeUp (Stage.apply f rest) t).tree
      induction t using Tree.byChildren with
      | step t ihTree =>
        rw [Tree.changeUp_eq] at h ⊢
        obtain ⟨hchildren, hself, htree⟩ := Outcome.andThen_of_error_eq_none h
        have hok := Tree.error_of_changeChildren hchildren
        rw [htree]
        rw [Tree.changeChildren_of_ok hok] at hself ⊢
        -- below the node everything is settled when the stages after the descent come to the node itself
        obtain ⟨hsettled, hkeeps⟩ := ih hself
        have hbelow : Settled f (.wildcard :: .descent :: rest)
            (t.mapChildren fun c => (Tree.changeUp (Stage.apply f rest) c).tree) := by
          refine settled_wildcard_iff.mpr fun c' hc' => ?_
          obtain ⟨c, hc, rfl⟩ := List.mem_map.mp (Tree.children_mapChildren _ t ▸ hc')
          exact (ihTree c hc (hok c hc)).1
        refine ⟨settled_descent_iff.mpr ⟨settled_wildcard_iff.mp (hkeeps _ hbelow), hsettled⟩, ?_⟩
        exact (keeps_mapChildren hf fun c hc => (ihTree c hc (hok c hc)).2).trans hkeeps

end Stage

/-! ### Single locations -/

/-- Putting a node at a location puts it in the place of a child of the container there. -/
lemma Tree.putAt_concat {t parent c : Tree} {w : List Segment} {s : Segment}
    (hparent : t.at? w = some parent) (hc : parent.child? s = some c) (v : Tree) :
    t.putAt (w ++ [s]) v = t.putAt w (parent.putChild s v) := by
  induction w generalizing t with
  | nil =>
    obtain rfl := Option.some.inj hparent
    exact putAt_cons hc [] v
  | cons s' rest ih =>
    obtain ⟨c', hc', hrest⟩ := at?_cons_eq_some_iff.mp hparent
    rw [List.cons_append, putAt_cons hc', putAt_cons hc', ih hrest]

namespace Pointer

variable {f : Tree → Except PathError Tree} {p : Pointer} {t : Tree}

/-- The location is the root, or the container of the location exists. -/
def HasParent (p : Pointer) (t : Tree) : Prop :=
  ∀ s, p.tail? = some s → ∃ parent, p.head.at? t = some parent ∧ parent.isContainer = true

/-- A transform that succeeds has found the container of its location, and leaves it there. -/
lemma hasParent_apply (h : (p.apply f t).error = none) : p.HasParent (p.apply f t).tree := by
  intro s hs
  unfold apply at h ⊢
  simp only [hs] at h ⊢
  cases hparent : p.head.at? t with
  | none =>
    rw [hparent] at h
    exact absurd h (by simp [Outcome.fail])
  | some parent =>
    simp only [hparent] at h ⊢
    split
    · next hcontainer =>
      cases hc : parent.child? s with
      | none => exact ⟨parent, hparent, hcontainer⟩
      | some c =>
        have hsegments : p.segments = p.head.segments ++ [s] := (List.dropLast_append_getLast? s hs).symm
        let v := (Outcome.ofExcept c (f c)).tree
        refine ⟨parent.putChild s v, ?_, ?_⟩
        · change (t.putAt p.segments v).at? p.head.segments = _
          have hput := Tree.at?_putAt hparent (parent.putChild s v) []
          rw [hsegments, Tree.putAt_concat hparent hc]
          rwa [List.append_nil] at hput
        · rwa [Tree.isContainer, Tree.kind_putChild]
    · next hvalue =>
      rw [if_neg hvalue] at h
      exact absurd h (by simp [Outcome.fail])

/-- A transform of a settled location changes nothing. -/
lemma apply_of_settled (hparent : p.HasParent t)
    (h : Stage.Settled f [.literal p, .terminal] t) : p.apply f t = .ok t := by
  have hsettled : ∀ c, p.at? t = some c → f c = .ok c := fun c hc =>
    Stage.settled_terminal_iff.mp (Stage.settled_literal_iff.mp h c hc)
  unfold apply
  cases hs : p.tail? with
  | none =>
    have hroot : p.at? t = some t := by rw [at?, List.getLast?_eq_none_iff.mp hs, Tree.at?_nil]
    simp only [hsettled t hroot]
    rfl
  | some s =>
    obtain ⟨parent, hat, hcontainer⟩ := hparent s hs
    simp only [hat, hcontainer, if_true]
    cases hc : parent.child? s with
    | none => rfl
    | some c =>
      have hnode : p.at? t = some c := by rw [at?_of_tail? hs, hat, Option.bind_some, hc]
      simp only [hsettled c hnode]
      exact congrArg Outcome.ok (Tree.putAt_self hnode)

end Pointer

/-! ### Selectors -/

/-- Where a run through a selector succeeds, a second run succeeds as well and changes nothing. -/
theorem Selector.apply_again {f : Tree → Except PathError Tree} (hf : Stabilizing f) (s : Selector)
    {t : Tree} (h : (s.apply f t).error = none) :
    s.apply f (s.apply f t).tree = .ok (s.apply f t).tree := by
  unfold apply at h ⊢
  cases hp : s.asPointer? with
  | none =>
    rw [hp] at h
    exact Stage.apply_of_settled (Stage.settled_apply hf h).1
  | some p =>
    rw [hp] at h
    -- a single location is not transformed by stages, since a missing container is an error there
    refine Pointer.apply_of_settled (Pointer.hasParent_apply h) ?_
    have hstages : p.apply f t = Stage.apply f [.literal p, .terminal] t := Pointer.apply_eq_stages h
    simp only [hstages] at h ⊢
    exact (Stage.settled_apply hf h).1

/-! ### Conversions -/

/-- An integer fits 64 bits if it lies in their range. -/
lemma inInt64?_eq_some_iff {n m : ℤ} : inInt64? n = some m ↔ m = n ∧ -2 ^ 63 ≤ n ∧ n < 2 ^ 63 := by
  unfold inInt64?
  split
  · next h => exact ⟨fun hm => ⟨(Option.some.inj hm).symm, h⟩, fun hm => congrArg some hm.1.symm⟩
  · next h => exact ⟨fun hm => absurd hm (by simp), fun hm => absurd hm.2 h⟩

namespace Conversion

/-- Only a node without children can be converted. -/
lemma childless_of_apply {c : Conversion} {t t' : Tree} (h : c.apply t = .ok t') : t.children = [] := by
  cases t with
  | array | map => cases c <;> exact absurd h (by simp [apply, convert?, double?, int64?])
  | null | bool | number | text => rfl

/-- The integral part of a double fits 64 bits if it is taken. -/
lemma bounds_of_integral? {x : Binary64.Finite} {n : ℤ} (h : integral? x = some n) :
    -2 ^ 63 ≤ n ∧ n < 2 ^ 63 := by
  unfold integral? at h
  split at h
  · next hlt =>
    obtain rfl := Option.some.inj h
    have hbounds : |x.truncate| < 2 ^ 63 := by
      rw [x.truncate_eq]
      exact abs_integralPart_lt (by exact_mod_cast (x.absLt_iff _).mp hlt)
    exact ⟨(abs_lt.mp hbounds).1.le, (abs_lt.mp hbounds).2⟩
  · exact absurd h (by simp)

/-- The integer that a node is read as fits 64 bits. -/
lemma bounds_of_int64? {t : Tree} {n : ℤ} (h : int64? t = some n) : -2 ^ 63 ≤ n ∧ n < 2 ^ 63 := by
  have hinteger : ∀ {m : ℤ}, inInt64? m = some n → -2 ^ 63 ≤ n ∧ n < 2 ^ 63 := by
    intro m hm
    obtain ⟨rfl, hbounds⟩ := inInt64?_eq_some_iff.mp hm
    exact hbounds
  have hfloat : ∀ {o : Option Binary64.Finite}, o.bind integral? = some n → -2 ^ 63 ≤ n ∧ n < 2 ^ 63 := by
    intro o ho
    obtain ⟨x, -, hx⟩ := Option.bind_eq_some_iff.mp ho
    exact bounds_of_integral? hx
  cases t with
  | null | bool | array | map => exact absurd h (by simp [int64?])
  | text s =>
    rcases Option.or_eq_some_iff.mp h with hread | ⟨-, hread⟩
    · obtain ⟨m, -, hm⟩ := Option.bind_eq_some_iff.mp hread
      exact hinteger hm
    · exact hfloat hread
  | number x =>
    cases x with
    | int m =>
      rcases Option.or_eq_some_iff.mp h with hm | ⟨-, hm⟩
      · exact hinteger hm
      · exact hfloat hm
    | float x => exact bounds_of_integral? h

/-- An integer of 64 bits is read as itself. -/
lemma int64?_ofInt {n : ℤ} (h : -2 ^ 63 ≤ n ∧ n < 2 ^ 63) : int64? (.ofInt n) = some n := by
  change (inInt64? n).or _ = some n
  rw [inInt64?_eq_some_iff.mpr ⟨rfl, h⟩, Option.some_or]

/-- The image of a node is converted to itself. -/
lemma convert?_again {c : Conversion} (hc : c ≠ .toSingle) {t t' : Tree} (h : c.convert? t = some t') :
    t' ≠ .null ∧ c.convert? t' = some t' := by
  cases c with
  | toSingle => exact absurd rfl hc
  | toText =>
    cases t with
    | text | number | bool =>
      obtain rfl := Option.some.inj h
      exact ⟨Tree.noConfusion, rfl⟩
    | null | array | map => exact absurd h (by simp [convert?])
  | toDouble =>
    obtain ⟨x, -, rfl⟩ := Option.map_eq_some_iff.mp h
    exact ⟨Tree.noConfusion, rfl⟩
  | toInt64 =>
    obtain ⟨n, hn, rfl⟩ := Option.map_eq_some_iff.mp h
    exact ⟨Tree.noConfusion, congrArg (Option.map Tree.ofInt) (int64?_ofInt (bounds_of_int64? hn))⟩
  | toInt32 =>
    obtain ⟨n, hn, himage⟩ := Option.bind_eq_some_iff.mp h
    split at himage
    · next hsmall =>
      obtain rfl := Option.some.inj himage
      refine ⟨Tree.noConfusion, ?_⟩
      rw [convert?, int64?_ofInt (bounds_of_int64? hn), Option.bind_some, if_pos hsmall]
    · exact absurd himage (by simp)

/-- The conversions to texts, doubles and integers leave their own images alone. -/
theorem stabilizing_apply {c : Conversion} (hc : c ≠ .toSingle) : Stabilizing c.apply where
  childless := childless_of_apply
  again := by
    intro t t' h
    by_cases hnull : t = .null
    · rw [apply, if_pos hnull] at h
      obtain rfl := Except.ok.inj h
      rw [apply, if_pos rfl]
    · rw [apply, if_neg hnull] at h
      cases himage : c.convert? t with
      | none => exact absurd h (by simp [himage])
      | some image =>
        rw [himage] at h
        obtain rfl := Except.ok.inj h
        obtain ⟨hne, hagain⟩ := convert?_again hc himage
        rw [apply, if_neg hne, hagain]

end Conversion

/-- Where converting to texts, doubles or integers through a selector succeeds, converting again succeeds and
changes nothing. -/
theorem Selector.apply_conversion_again {c : Conversion} (hc : c ≠ .toSingle) (s : Selector) {t : Tree}
    (h : (s.apply c.apply t).error = none) :
    s.apply c.apply (s.apply c.apply t).tree = .ok (s.apply c.apply t).tree :=
  s.apply_again (Conversion.stabilizing_apply hc) h

/-- Through `/**/**/a` the text at `/b/a` is met twice and converted twice in one run, and a second run
changes nothing. -/
theorem Selector.apply_conversion_again_two_descents : ∃ (s : Selector) (t t' : Tree),
    compile "/**/**/a" = .ok s ∧ t = .map [("b", .map [("a", .text "7")])] ∧
    t' = .map [("b", .map [("a", .number (.int 7))])] ∧ s.all t = [.text "7", .text "7"] ∧
    s.apply Conversion.toInt64.apply t = .ok t' ∧ s.apply Conversion.toInt64.apply t' = .ok t' := by
  refine ⟨⟨"/**/**/a", [.descent, .descent, .literal ⟨[⟨"a"⟩]⟩, .terminal]⟩, _, _, rfl, rfl, rfl, rfl,
    rfl, ?_⟩
  exact apply_conversion_again (c := .toInt64) (by decide) _
    (t := .map [("b", .map [("a", .text "7")])]) rfl

end DocumentPath
