import DocumentPath.Tree.Basic

/-!
# Outcomes of changes

A change of a tree may stop with an error, and the tree stays as the steps up to there left it.  An
`Outcome` holds that tree together with the error, if any; a change is a function from trees to
outcomes.  `Outcome.andThen` runs a further change unless one has failed, `Outcome.within` carries a
change of a node over to the tree around it, and `Tree.changeChildren` and `Tree.changeUp` run a change
on every child in order and on every node from the leaves up.
-/

namespace DocumentPath

/-- A tree after a change, and the error that stopped the change, if one did. -/
structure Outcome (ε : Type) where
  tree : Tree
  error : Option ε

namespace Outcome

variable {ε δ : Type}

/-- The outcome of a change that was carried out. -/
def ok (t : Tree) : Outcome ε := ⟨t, none⟩

/-- The outcome of a change that was stopped. -/
def fail (e : ε) (t : Tree) : Outcome ε := ⟨t, some e⟩

/-- Whether the change was carried out. -/
def isOk (o : Outcome ε) : Bool := o.error.isNone

/-- The outcome with its error replaced by its image. -/
def mapError (f : ε → δ) (o : Outcome ε) : Outcome δ := ⟨o.tree, o.error.map f⟩

/-- Runs a further change unless one has failed. -/
def andThen (o : Outcome ε) (f : Tree → Outcome ε) : Outcome ε :=
  match o.error with
  | none => f o.tree
  | some _ => o

/-- The outcome for `t` of a change of the node at `path` in it. -/
def within (t : Tree) (path : List Segment) (o : Outcome ε) : Outcome ε :=
  ⟨t.putAt path o.tree, o.error⟩

/-- The outcome of a computation that gives a new tree or leaves the old one. -/
def ofExcept (t : Tree) : Except ε Tree → Outcome ε
  | .ok t' => ok t'
  | .error e => fail e t

/-- Runs changes one after another until one fails. -/
def sequence (t : Tree) (changes : List (Tree → Outcome ε)) : Outcome ε :=
  changes.foldl andThen (ok t)

end Outcome

namespace Tree

variable {ε : Type}

/-! ### Changing the children -/

/-- Runs a change on each of a list of trees until one fails. -/
def changeItems (f : Tree → Outcome ε) : List Tree → List Tree × Option ε
  | [] => ([], none)
  | t :: rest =>
    let o := f t
    match o.error with
    | some e => (o.tree :: rest, some e)
    | none =>
      let (rest, e) := changeItems f rest
      (o.tree :: rest, e)

/-- Runs a change on each of a list of fields until one fails. -/
def changeFields (f : Tree → Outcome ε) :
    List (String × Tree) → List (String × Tree) × Option ε
  | [] => ([], none)
  | (k, t) :: rest =>
    let o := f t
    match o.error with
    | some e => ((k, o.tree) :: rest, some e)
    | none =>
      let (rest, e) := changeFields f rest
      ((k, o.tree) :: rest, e)

/-- Runs a change on every child in order until one fails. -/
def changeChildren (f : Tree → Outcome ε) : Tree → Outcome ε
  | .array items =>
    let (items, e) := changeItems f items
    ⟨.array items, e⟩
  | .map fields =>
    let (fields, e) := changeFields f fields
    ⟨.map fields, e⟩
  | t => .ok t

/-! ### Changing every node from the leaves up -/

mutual

/-- Runs a change on every node until one fails, on a node after the nodes below it. -/
def changeUp (f : Tree → Outcome ε) : Tree → Outcome ε
  | .array items =>
    let (items, e) := changeUpItems f items
    match e with
    | some e => .fail e (.array items)
    | none => f (.array items)
  | .map fields =>
    let (fields, e) := changeUpFields f fields
    match e with
    | some e => .fail e (.map fields)
    | none => f (.map fields)
  | t => f t

/-- Runs a change from the leaves up in each of a list of trees until one fails. -/
def changeUpItems (f : Tree → Outcome ε) : List Tree → List Tree × Option ε
  | [] => ([], none)
  | t :: rest =>
    let o := changeUp f t
    match o.error with
    | some e => (o.tree :: rest, some e)
    | none =>
      let (rest, e) := changeUpItems f rest
      (o.tree :: rest, e)

/-- Runs a change from the leaves up in each of a list of fields until one fails. -/
def changeUpFields (f : Tree → Outcome ε) :
    List (String × Tree) → List (String × Tree) × Option ε
  | [] => ([], none)
  | (k, t) :: rest =>
    let o := changeUp f t
    match o.error with
    | some e => ((k, o.tree) :: rest, some e)
    | none =>
      let (rest, e) := changeUpFields f rest
      ((k, o.tree) :: rest, e)

end

end Tree

end DocumentPath
