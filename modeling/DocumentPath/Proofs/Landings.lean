import Mathlib
import DocumentPath.Proofs.CopySteps
import DocumentPath.Proofs.CopyWalks

/-!
# Where copies land

`Tree.landing` is the location of the destination to which a copy goes, and `Pointer.landings` lists the
landings of a run of copies, each beside the location of the source that it is for.

`Placement.route` reads a landing off a placement: an element of an array goes to the index on record for
it, and everything else keeps its key.  `Pointer.Apart` says of the landings of a run that they are the
routes of the final placement, and that no two elements of one array of the source have the same place.
It holds of every run in which each copy keeps apart from the ones before it (`Pointer.apart_landings`).
-/

namespace DocumentPath

namespace Placement

/-- The step of the destination that stands for a step of the source: to the index on record, or else
under the same key. -/
def seat (pl : Placement) (w : List Segment) (s : Segment) : Segment :=
  (pl.get? (w ++ [s])).elim s Segment.ofIndex

/-- The location of the destination that stands for one of the source, after `walked`. -/
def route (pl : Placement) : List Segment → List Segment → List Segment
  | _, [] => []
  | walked, s :: rest => pl.seat walked s :: pl.route (walked ++ [s]) rest

/-- The route of a location through a child goes through the seat of the child. -/
lemma take_route (pl : Placement) {w e p : List Segment} {s : Segment} (h : e ++ [s] <+: p) :
    (pl.route w p).take (e.length + 1) = pl.route w e ++ [pl.seat (w ++ e) s] := by
  induction e generalizing w p with
  | nil =>
    obtain ⟨rest, rfl⟩ := h
    simp [route]
  | cons x e ih =>
    cases p with
    | nil => exact absurd (List.prefix_nil.mp h) (by simp)
    | cons y p =>
      rw [List.cons_append, List.cons_prefix_cons] at h
      obtain ⟨rfl, h⟩ := h
      rw [List.length_cons, route, List.take_succ_cons, ih h, route, List.append_assoc]
      rfl

/-- Routes agree if the same is on record on the way. -/
lemma route_congr {pl pl' : Placement} {w p : List Segment}
    (h : ∀ e, e ≠ [] → e <+: p → pl'.get? (w ++ e) = pl.get? (w ++ e)) :
    pl'.route w p = pl.route w p := by
  induction p generalizing w with
  | nil => rfl
  | cons s rest ih =>
    have hseat : pl'.seat w s = pl.seat w s := by
      rw [seat, seat, h [s] (by simp) ⟨rest, rfl⟩]
    rw [route, route, hseat, ih fun e he hpre => ?_]
    rw [List.append_assoc]
    exact h (s :: e) (by simp) (List.cons_prefix_cons.mpr ⟨rfl, hpre⟩)

end Placement

namespace Tree

/-- The location of a destination to which a copy along a path goes, the segments before having been
`walked`. -/
def landing : List Segment → List Segment → Placement → Tree → List Segment
  | _, [], _, _ => []
  | walked, s :: rest, pl, t =>
    match t with
    | .map fields => s :: landing (walked ++ [s]) rest pl (fieldAlong fields s rest)
    | .array items =>
      match seat? pl (walked ++ [s]) s rest items with
      | some i => .ofIndex i ::
          landing (walked ++ [s]) rest (pl.record (walked ++ [s]) i) (items[i]?.getD .null)
      | none => .ofIndex items.length ::
          landing (walked ++ [s]) rest (pl.record (walked ++ [s]) items.length) (freshAlong rest)
    | _ => s :: rest

/-- A copy into an element that is reused lands below its index. -/
lemma landing_array_reused {w : List Segment} {pl : Placement} {items : List Tree} {s : Segment}
    {rest : List Segment} {i : ℕ} (h : seat? pl (w ++ [s]) s rest items = some i) :
    landing w (s :: rest) pl (.array items) = .ofIndex i ::
      landing (w ++ [s]) rest (pl.record (w ++ [s]) i) (items[i]?.getD .null) := by
  rw [landing]
  simp only [h]

/-- A copy into a new element lands below the index behind the last one. -/
lemma landing_array_new {w : List Segment} {pl : Placement} {items : List Tree} {s : Segment}
    {rest : List Segment} (h : seat? pl (w ++ [s]) s rest items = none) :
    landing w (s :: rest) pl (.array items) = .ofIndex items.length ::
      landing (w ++ [s]) rest (pl.record (w ++ [s]) items.length) (freshAlong rest) := by
  rw [landing]
  simp only [h]

/-- An element that is reused is there. -/
lemma lt_length_of_seat? {pl : Placement} {e : List Segment} {s : Segment} {rest : List Segment}
    {items : List Tree} {i : ℕ} (h : seat? pl e s rest items = some i) : i < items.length := by
  have husable := (Option.filter_eq_some_iff.mp h).2
  by_contra hge
  rw [List.getElem?_eq_none (Nat.le_of_not_lt hge)] at husable
  exact absurd husable (by simp)

/-- An element that is reused is the one on record, from before or from now on. -/
lemma get?_record_of_seat? {pl : Placement} {e : List Segment} {s : Segment} {rest : List Segment}
    {items : List Tree} {i : ℕ} (h : seat? pl e s rest items = some i) :
    (pl.record e i).get? e = some i := by
  rw [Placement.get?_record_self]
  cases hk : pl.get? e with
  | none => rfl
  | some k =>
    rw [seat?, slot?, hk, Option.some_or, Option.filter_eq_some_iff] at h
    exact h.1

/-- How a copy along `s :: rest` goes on below the child `s` of a node `t` of the destination: from the
node `t₁`, with the placement `pl₁`, and with `put` to put the outcome back in its place. -/
structure Step (pl : Placement) (w : List Segment) (s : Segment) (rest : List Segment) (t t₁ : Tree)
    (pl₁ : Placement) (put : Tree → Tree) : Prop where
  /-- The copy is a copy below the child. -/
  copy : ∀ v, copyOver v w (s :: rest) pl t
    = (⟨put (copyOver v (w ++ [s]) rest pl₁ t₁).1.tree, (copyOver v (w ++ [s]) rest pl₁ t₁).1.error⟩,
      (copyOver v (w ++ [s]) rest pl₁ t₁).2)
  /-- It lands below the seat of the child. -/
  landing : landing w (s :: rest) pl t = pl₁.seat w s :: Tree.landing (w ++ [s]) rest pl₁ t₁
  /-- Only the child itself may have been placed. -/
  entries : ∀ e, e ≠ w ++ [s] → pl₁.get? e = pl.get? e

/-- The step into a field, for which nothing is on record. -/
lemma step_map {pl : Placement} {w : List Segment} {s : Segment} {rest : List Segment}
    {fields : List (String × Tree)} (hready : ready rest (fieldAlong fields s rest) = true)
    (hnone : pl.get? (w ++ [s]) = none) : Step pl w s rest (.map fields) (fieldAlong fields s rest)
      pl fun x => .map (Entries.insert fields s.key x) := by
  refine ⟨fun v => copyOver_map v w pl hready, ?_, fun _ _ => rfl⟩
  rw [Tree.landing, Placement.seat, hnone, Option.elim_none]

/-- The step into an element that is reused. -/
lemma step_array_reused {pl : Placement} {w : List Segment} {s : Segment} {rest : List Segment}
    {items : List Tree} {i : ℕ} (hseat : seat? pl (w ++ [s]) s rest items = some i) :
    Step pl w s rest (.array items) (items[i]?.getD .null) (pl.record (w ++ [s]) i)
      fun x => .array (items.set i x) := by
  refine ⟨fun v => copyOver_array_reused v w pl hseat, ?_,
    fun e he => pl.get?_record_of_ne (Ne.symm he) i⟩
  rw [landing_array_reused hseat, Placement.seat, get?_record_of_seat? hseat, Option.elim_some]

/-- The step into a new element. -/
lemma step_array_new {pl : Placement} {w : List Segment} {s : Segment} {rest : List Segment}
    {items : List Tree} (hseat : seat? pl (w ++ [s]) s rest items = none)
    (hnone : pl.get? (w ++ [s]) = none) : Step pl w s rest (.array items) (freshAlong rest)
      (pl.record (w ++ [s]) items.length) fun x => .array (items ++ [x]) := by
  refine ⟨fun v => copyOver_array_new v w pl hseat, ?_,
    fun e he => pl.get?_record_of_ne (Ne.symm he) _⟩
  rw [landing_array_new hseat, Placement.seat, Placement.get?_record_self, hnone, Option.getD_none,
    Option.elim_some]

/-- Below the child a step changes nothing of the placement. -/
lemma Step.below {pl pl₁ : Placement} {w : List Segment} {s : Segment} {rest : List Segment}
    {t t₁ : Tree} {put : Tree → Tree} (h : Step pl w s rest t t₁ pl₁ put) {e : List Segment}
    (he : e ≠ []) : pl₁.get? (w ++ [s] ++ e) = pl.get? (w ++ [s] ++ e) :=
  h.entries _ fun heq => he (List.append_right_eq_self.mp heq)

end Tree

namespace Pointer

/-! ### The landings of a run -/

/-- The locations that a run of copies copies, each with its landing; a copy that fails is the last. -/
def landings (source : Tree) (filter : Option Filter) :
    List Pointer → Placement → Tree → List (List Segment × List Segment)
  | [], _, _ => []
  | p :: rest, pl, t =>
    let later :=
      match (p.copyPlaced source filter pl t).1.error with
      | some _ => []
      | none => landings source filter rest (p.copyPlaced source filter pl t).2
          (p.copyPlaced source filter pl t).1.tree
    if source.offers filter p.segments then
      (p.segments, Tree.landing [] p.segments pl t) :: later
    else later

/-- A location that is not offered lands nowhere. -/
lemma landings_cons_of_not_offers {source : Tree} {filter : Option Filter} {q : List Segment}
    (h : source.offers filter q = false) (rest : List Pointer) (pl : Placement) (t : Tree) :
    landings source filter (⟨q⟩ :: rest) pl t = landings source filter rest pl t := by
  have hcopy := copyPlaced_of_not_offers h pl t
  have hok : (copyPlaced ⟨q⟩ source filter pl t).1.error = none := by
    rw [hcopy]
    rfl
  rw [landings]
  simp only [hok, h, Bool.false_eq_true, if_false]
  rw [hcopy]
  rfl

/-- After a copy that succeeds further ones land. -/
lemma landings_cons_of_ok {source : Tree} {filter : Option Filter} {q : List Segment}
    {pl : Placement} {t : Tree} (h : source.offers filter q = true)
    (hok : (copyPlaced ⟨q⟩ source filter pl t).1.error = none) (rest : List Pointer) :
    landings source filter (⟨q⟩ :: rest) pl t = (q, Tree.landing [] q pl t) ::
      landings source filter rest (copyPlaced ⟨q⟩ source filter pl t).2
        (copyPlaced ⟨q⟩ source filter pl t).1.tree := by
  rw [landings]
  simp only [hok, h, if_true]

/-- A copy that fails is the last to land. -/
lemma landings_cons_of_error {source : Tree} {filter : Option Filter} {q : List Segment}
    {pl : Placement} {t : Tree} {e : PathError} (h : source.offers filter q = true)
    (herror : (copyPlaced ⟨q⟩ source filter pl t).1.error = some e) (rest : List Pointer) :
    landings source filter (⟨q⟩ :: rest) pl t = [(q, Tree.landing [] q pl t)] := by
  rw [landings]
  simp only [herror, h, if_true]

/-- A single copy has a single landing. -/
lemma landings_singleton {source : Tree} {filter : Option Filter} {q : List Segment}
    (h : source.offers filter q = true) (pl : Placement) (t : Tree) :
    landings source filter [⟨q⟩] pl t = [(q, Tree.landing [] q pl t)] := by
  cases hcopy : (copyPlaced ⟨q⟩ source filter pl t).1.error with
  | some e => rw [landings_cons_of_error h hcopy]
  | none => rw [landings_cons_of_ok h hcopy, landings]

/-- Two elements of one array of the source, on the way to locations in `S`, have different seats. -/
def SeatsApart (source : Tree) (S : Set (List Segment)) (pl : Placement) : Prop :=
  ∀ h ∈ S, ∀ h' ∈ S, ∀ w s s' items, source.at? w = some (.array items) →
    w ++ [s] <+: h → w ++ [s'] <+: h' → s ≠ s' → pl.seat w s ≠ pl.seat w s'

/-- The landings are the routes of the placement, and different elements of an array of the source have
different seats. -/
structure Apart (source : Tree) (visited : List (List Segment × List Segment)) (pl : Placement) :
    Prop where
  /-- Every copied location is on record as it landed. -/
  route : ∀ x ∈ visited, x.2 = pl.route [] x.1
  /-- Two elements of one array that have been gone into stand in different places. -/
  seats : SeatsApart source {q | ∃ d, (q, d) ∈ visited} pl

/-- What a copy of the location `p` has to do for a run to stay apart, when the locations `S` have been
copied before. -/
structure KeepsApart (source : Tree) (S : Set (List Segment)) (p d : List Segment)
    (pl pl' : Placement) : Prop where
  /-- The new location is on record as it lands. -/
  route : d = pl'.route [] p
  /-- The ways to the locations copied before stay as they are. -/
  frozen : ∀ h ∈ S, ∀ e, e ≠ [] → e <+: h → pl'.get? e = pl.get? e
  /-- The elements gone into on the way stand in other places than the ones before. -/
  seats : ∀ h ∈ S, ∀ w s s' items, source.at? w = some (.array items) →
    w ++ [s] <+: h → w ++ [s'] <+: p → s ≠ s' → pl'.seat w s ≠ pl'.seat w s'

/-- Before anything has been copied nothing is together. -/
lemma Apart.nil (source : Tree) (pl : Placement) : Apart source [] pl :=
  ⟨by simp, by simp [SeatsApart]⟩

/-- One more copy that keeps apart. -/
lemma Apart.concat {source : Tree} {visited : List (List Segment × List Segment)}
    {pl pl' : Placement} {p d : List Segment} (h : Apart source visited pl)
    (hstep : KeepsApart source {q | ∃ d, (q, d) ∈ visited} p d pl pl') :
    Apart source (visited ++ [(p, d)]) pl' := by
  have hseat : ∀ {q d : List Segment}, (q, d) ∈ visited → ∀ w s, w ++ [s] <+: q →
      pl'.seat w s = pl.seat w s := by
    intro q d hq w s hpre
    rw [Placement.seat, Placement.seat, hstep.frozen q ⟨d, hq⟩ _ (by simp) hpre]
  constructor
  · intro x hx
    rcases List.mem_append.mp hx with hx | hx
    · rw [h.route x hx]
      exact (Placement.route_congr fun e he hpre => hstep.frozen x.1 ⟨x.2, hx⟩ e he hpre).symm
    · rw [List.mem_singleton.mp hx]
      exact hstep.route
  · rintro q ⟨d, hq⟩ q' ⟨d', hq'⟩ w s s' items hw hs hs' hne
    rcases List.mem_append.mp hq with hq | hq <;> rcases List.mem_append.mp hq' with hq' | hq'
    · rw [hseat hq w s hs, hseat hq' w s' hs']
      exact h.seats q ⟨d, hq⟩ q' ⟨d', hq'⟩ w s s' items hw hs hs' hne
    · rw [(Prod.mk.inj (List.mem_singleton.mp hq')).1] at hs'
      exact hstep.seats q ⟨d, hq⟩ w s s' items hw hs hs' hne
    · rw [(Prod.mk.inj (List.mem_singleton.mp hq)).1] at hs
      exact (hstep.seats q' ⟨d', hq'⟩ w s' s items hw hs' hs hne.symm).symm
    · -- one location goes through one element of an array only
      rw [(Prod.mk.inj (List.mem_singleton.mp hq)).1] at hs
      rw [(Prod.mk.inj (List.mem_singleton.mp hq')).1] at hs'
      have heq := (List.prefix_of_prefix_length_le hs hs' (by simp)).eq_of_length (by simp)
      exact absurd (List.cons.inj (List.append_cancel_left heq)).1 hne

/-- The root lies in no array. -/
lemma Apart.root {source : Tree} {visited : List (List Segment × List Segment)} {pl : Placement}
    (h : Apart source visited pl) : Apart source (visited ++ [([], [])]) pl := by
  refine h.concat ⟨rfl, fun _ _ _ _ _ => rfl, ?_⟩
  intro _ _ w _ s' _ _ _ hs' _
  exact absurd (List.prefix_nil.mp hs') (by simp)

/-- One more visit inserts its location. -/
lemma setOf_visited_concat (visited : List (List Segment × List Segment)) (p d : List Segment) :
    {q | ∃ d', (q, d') ∈ visited ++ [(p, d)]} = insert p {q | ∃ d', (q, d') ∈ visited} := by
  ext q
  simp only [Set.mem_ofPred_eq, List.mem_append, List.mem_singleton, Prod.mk.injEq,
    Set.mem_insert_iff, exists_or]
  rw [or_comm]
  exact or_congr_left ⟨fun ⟨_, hq, _⟩ => hq, fun hq => ⟨_, hq, rfl⟩⟩

/-- A run of copies of which each keeps apart from the ones before, as an invariant of the copied
locations, the placement and the destination ensures, keeps apart as a whole. -/
theorem apart_landings {source : Tree} {filter : Option Filter}
    (Inv : Set (List Segment) → Placement → Tree → Prop) {all : List (List Segment)}
    (hstep : ∀ p ∈ all, ∀ S pl t v, Inv S pl t → SeatsApart source S pl → p ≠ [] →
      source.at? p = some v → (∀ h ∈ S, source.Precedes h p) →
      KeepsApart source S p (Tree.landing [] p pl t) pl (Tree.copyOver v [] p pl t).2 ∧
        Inv (insert p S) (Tree.copyOver v [] p pl t).2 (Tree.copyOver v [] p pl t).1.tree)
    {ts : List (List Segment)} (hall : ts ⊆ all) (hts : ts.Pairwise (Tree.Precedes source))
    {visited : List (List Segment × List Segment)} {pl : Placement} {t : Tree}
    (hinv : Inv {q | ∃ d, (q, d) ∈ visited} pl t)
    (hprec : ∀ x ∈ visited, ∀ q ∈ ts, source.Precedes x.1 q) (h : Apart source visited pl) :
    Apart source (visited ++ landings source filter (ts.map Pointer.mk) pl t)
      (copyEach source filter (ts.map Pointer.mk) pl t).2 := by
  induction ts generalizing visited pl t with
  | nil =>
    rw [List.map_nil, landings, List.append_nil]
    exact h
  | cons p rest ih =>
    obtain ⟨hpre, hrest⟩ := List.pairwise_cons.mp hts
    have hallrest : rest ⊆ all := fun q hq => hall (List.mem_cons_of_mem _ hq)
    have hprecrest : ∀ x ∈ visited, ∀ q ∈ rest, source.Precedes x.1 q :=
      fun x hx q hq => hprec x hx q (List.mem_cons_of_mem _ hq)
    rw [List.map_cons]
    cases hoff : source.offers filter p with
    | false =>
      rw [landings_cons_of_not_offers hoff, copyEach_cons_of_not_offers hoff]
      exact ih hallrest hrest hinv hprecrest h
    | true =>
      by_cases hp : p = []
      · -- nothing comes after the root
        subst hp
        rw [Tree.eq_nil_of_precedes_root hpre, List.map_nil, landings_singleton hoff,
          copyEach_singleton, copyPlaced_root hoff]
        exact h.root
      · obtain ⟨v, hv, -⟩ := Tree.offers_eq_true_iff.mp hoff
        have hmem : p ∈ all := hall List.mem_cons_self
        have hprec' : ∀ q ∈ {q | ∃ d, (q, d) ∈ visited}, source.Precedes q p :=
          fun q ⟨d, hd⟩ => hprec (q, d) hd p List.mem_cons_self
        obtain ⟨hkeeps, hinv'⟩ := hstep p hmem _ pl t v hinv h.seats hp hv hprec'
        have hcopy := copyPlaced_of_offers hv hoff hp pl t
        have hconcat := h.concat hkeeps
        cases hok : (copyPlaced ⟨p⟩ source filter pl t).1.error with
        | some e =>
          rw [landings_cons_of_error hoff hok, copyEach_cons_of_error hok, hcopy]
          exact hconcat
        | none =>
          rw [landings_cons_of_ok hoff hok, copyEach_cons_of_ok hok, List.append_cons, hcopy]
          refine ih hallrest hrest (setOf_visited_concat visited p _ ▸ hinv') ?_ hconcat
          intro x hx q hq
          rcases List.mem_append.mp hx with hx | hx
          · exact hprecrest x hx q hq
          · rw [List.mem_singleton.mp hx]
            exact hpre q hq

end Pointer

end DocumentPath
