import Mathlib
import DocumentPath.Spec.BuildSpec
import DocumentPath.Proofs.JsonTexts

/-!
# Build specs as JSON text

A build spec is read back from its JSON text as it was written, as long as none of its literals is a float
(`BuildSpec.ofText?_json_toTree`).  What is read of a tree is first a value as it is written in JSON text,
and then what a reader of specs makes of that value; `Tree.ReadsBack` puts the two together, and has one lemma
for each part of a spec.
-/

namespace DocumentPath

-- `^` stands for the built-in power, also next to that of a monoid
attribute [local instance (2000)] instPowNat

/-- The reader makes `a` of what is read of the text of the tree. -/
def Tree.ReadsBack {α : Type} (read? : Json → Option α) (t : Tree) (a : α) : Prop :=
  ∃ j, t.ReadsAs j ∧ read? j = some a

open DocumentPath.Tree

/-! ### Scalars and names -/

/-- A 64-bit integer keeps its kind. -/
lemma Scalar.ofNumber_toInt (n : Int64) : ofNumber (.int n.toInt) = .int n := by
  rw [ofNumber, if_pos ⟨n.le_toInt, n.toInt_lt⟩, Int64.ofInt_toInt]

/-- An integer of 64 bits is read back as a scalar. -/
lemma Scalar.ofJson?_ofInt (n : Int64) : ofJson? (.number (.ofInt n.toInt)) = some (.int n) := by
  have hvalue : (Numeral.ofInt n.toInt).value? = some (.int n.toInt) :=
    Numeral.value?_ofInt n.le_toInt (n.toInt_lt.trans (by norm_num))
  rw [ofJson?, hvalue, Option.map_some, ofNumber_toInt]

/-- A scalar other than a float is read back as the same kind of scalar. -/
lemma Scalar.readsBack {v : Scalar} (h : ∀ x, v ≠ .float x) : ReadsBack ofJson? v.toTree v := by
  cases v with
  | null => exact ⟨_, readsAs_null, rfl⟩
  | bool b => exact ⟨_, readsAs_bool b, rfl⟩
  | int n => exact ⟨_, readsAs_int n.toInt, ofJson?_ofInt n⟩
  | float x => exact absurd rfl (h x)
  | text s => exact ⟨_, readsAs_text s, rfl⟩

namespace BuildSpec

/-- A text is read back. -/
lemma readsBack_text (s : String) : ReadsBack readText? (.text s) s := ⟨_, readsAs_text s, rfl⟩

/-- What has a name is read back by it. -/
lemma readsBack_name {α : Type} {ofName? : String → Option α} {name : String} {a : α}
    (h : ofName? name = some a) : ReadsBack (readName? ofName?) (.text name) a :=
  ⟨_, readsAs_text name, h⟩

/-- A mode is read back by its name. -/
lemma readsBack_mode (m : PutMode) : ReadsBack (readName? PutMode.ofName?) (.text m.name) m :=
  readsBack_name (by cases m <;> rfl)

/-- A representation is read back by its name. -/
lemma readsBack_representation (r : Representation) :
    ReadsBack (readName? Representation.ofName?) (.text r.name) r :=
  readsBack_name (by cases r <;> rfl)

/-- An absent representation stays absent. -/
lemma readsBack_representation? (r : Option Representation) :
    ReadsBack (readOptional? (readName? Representation.ofName?))
      (r.elim .null fun r => .text r.name) r := by
  cases r with
  | none => exact ⟨_, readsAs_null, rfl⟩
  | some r =>
    refine ⟨_, readsAs_text r.name, ?_⟩
    cases r <;> rfl

/-! ### Lists and records -/

/-- A list is read back if each of its elements is. -/
lemma readsBack_list {α : Type} {read? : Json → Option α} {write : α → Tree} {as : List α}
    (h : ∀ a ∈ as, ReadsBack read? (write a) a) :
    ReadsBack (readList? read?) (.array (as.map write)) as := by
  have hitems : ∃ js, List.Forall₂ ReadsAs (as.map write) js ∧ js.mapM read? = some as := by
    induction as with
    | nil => exact ⟨[], .nil, rfl⟩
    | cons a rest ih =>
      obtain ⟨ha, hrest⟩ := List.forall_mem_cons.mp h
      obtain ⟨j, hj, hread⟩ := ha
      obtain ⟨js, hjs, hreads⟩ := ih hrest
      exact ⟨j :: js, .cons hj hjs, by rw [List.mapM_cons, hread, hreads]; rfl⟩
  obtain ⟨js, hjs, hreads⟩ := hitems
  exact ⟨_, readsAs_array hjs, hreads⟩

/-- An object of the fields of a record is read as these fields. -/
lemma readRecord?_object {fields : Entries String Json} (h : (Entries.keys fields).Nodup) :
    readRecord? (Entries.keys fields) (.object (fields.map (Prod.map some id))) = some fields := by
  have htexts : (fields.map (Prod.map some id)).mapM (fun f : Option String × Json =>
      f.1.map (·, f.2)) = some fields := by
    clear h
    induction fields with
    | nil => rfl
    | cons f rest ih =>
      rw [List.map_cons, List.mapM_cons, ih]
      rfl
  have hknown : fields.filter (fun f => (Entries.keys fields).contains f.1) = fields :=
    List.filter_eq_self.mpr fun f hf => List.contains_iff_mem.mpr (List.mem_map_of_mem hf)
  rw [readRecord?, htexts, Option.bind_eq_bind, Option.bind_some]
  simp only [hknown]
  rw [if_pos h]

/-- A record is read back if its fields are read as values from which the record is made. -/
lemma readsBack_record {α : Type} {read? : Json → Option α} (names : List String)
    {build : Entries String Json → Option α} (hread : ∀ j, read? j = (readRecord? names j).bind build)
    {fields : List (String × Tree)} {js : Entries String Json} (hfields : List.Forall₂ FieldReadsAs fields js)
    (hkeys : Entries.keys js = names) (hnames : names.Nodup) {a : α} (h : build js = some a) :
    ReadsBack read? (.map fields) a := by
  refine ⟨_, readsAs_map hfields, ?_⟩
  subst hkeys
  rw [hread, readRecord?_object hnames, Option.bind_some, h]

/-! ### Entries and specs -/

/-- A literal entry is read back unless its value is a float. -/
lemma readsBack_literal {e : LiteralEntry} (h : ∀ x, e.value ≠ .float x) :
    ReadsBack readLiteral? (literalTree e) e := by
  obtain ⟨_, hvalue, hvalueRead⟩ := Scalar.readsBack h
  obtain ⟨_, hinto, hintoRead⟩ := readsBack_text e.into
  refine readsBack_record ["value", "into"] (fun _ => rfl)
    (.cons (.intro _ hvalue) (.cons (.intro _ hinto) .nil)) rfl (by decide) ?_
  simp [readField?, Entries.get?, hvalueRead, hintoRead]

/-- An entry of a looked-up value is read back. -/
lemma readsBack_put (e : PutEntry) : ReadsBack readPut? (putTree e) e := by
  obtain ⟨_, hmode, hmodeRead⟩ := readsBack_mode e.mode
  obtain ⟨_, hkey, hkeyRead⟩ := readsBack_text e.key
  obtain ⟨_, htype, htypeRead⟩ := readsBack_representation? e.representation
  obtain ⟨_, hinto, hintoRead⟩ := readsBack_text e.into
  refine readsBack_record ["mode", "from", "as_type", "into"] (fun _ => rfl)
    (.cons (.intro _ hmode) (.cons (.intro _ hkey) (.cons (.intro _ htype) (.cons (.intro _ hinto) .nil))))
    rfl (by decide) ?_
  simp [readField?, Entries.get?, hmodeRead, hkeyRead, htypeRead, hintoRead]

/-- A spec is read back unless a literal is a float. -/
lemma readsBack {s : BuildSpec} (h : ∀ e ∈ s.literals, ∀ x, e.value ≠ .float x) :
    ReadsBack ofJson? s.toTree s := by
  obtain ⟨_, htarget, htargetRead⟩ := readsBack_text s.target
  obtain ⟨_, htype, htypeRead⟩ := readsBack_representation s.defaultRepresentation
  obtain ⟨_, hliterals, hliteralsRead⟩ := readsBack_list fun e he => readsBack_literal (h e he)
  obtain ⟨_, hputs, hputsRead⟩ := readsBack_list fun e (_ : e ∈ s.puts) => readsBack_put e
  refine readsBack_record ["target", "default_type", "literals", "puts"] (fun _ => rfl)
    (.cons (.intro _ htarget) (.cons (.intro _ htype) (.cons (.intro _ hliterals)
      (.cons (.intro _ hputs) .nil)))) rfl (by decide) ?_
  simp [readField?, Entries.get?, htargetRead, htypeRead, hliteralsRead, hputsRead]

/-- **Build specs survive their text.**  A spec without floats among its literals is read back from its JSON
text as it was: the target and the default representation, and all literals and puts in their order, with the
kinds of the literals, the modes and the representations, of which absent ones stay absent. -/
theorem ofText?_json_toTree {s : BuildSpec} (h : ∀ e ∈ s.literals, ∀ x, e.value ≠ .float x) :
    ofText? s.toTree.json = some s := by
  obtain ⟨j, hj, hread⟩ := readsBack h
  rw [ofText?, hj.read?, Option.bind_some, hread]

/-- A spec whose literals are null, a boolean, the least integer, texts that look like other values and a text
full of escapes, with two puts of which only one asks for a representation. -/
theorem ofText?_json_toTree_lookalikes :
    ∃ s : BuildSpec, s.literals.map LiteralEntry.value
        = [.null, .bool true, .int Int64.minValue, .text "null", .text "1", .text "\"\\\n\x01\x7f"] ∧
      s.puts = [⟨.put, "a", none, "/a"⟩, ⟨.add, "b", some .tree, "/b"⟩] ∧
      (∀ e ∈ s.literals, ∀ x, e.value ≠ .float x) ∧ ofText? s.toTree.json = some s := by
  have h : ∀ e ∈ ([⟨.null, "/n"⟩, ⟨.bool true, "/t"⟩, ⟨.int Int64.minValue, "/i"⟩, ⟨.text "null", "/x"⟩,
      ⟨.text "1", "/y"⟩, ⟨.text "\"\\\n\x01\x7f", "/z"⟩] : List LiteralEntry), ∀ x, e.value ≠ .float x := by
    simp
  exact ⟨⟨"/t", .boolean, _, [⟨.put, "a", none, "/a"⟩, ⟨.add, "b", some .tree, "/b"⟩]⟩, rfl, rfl, h,
    ofText?_json_toTree h⟩

end BuildSpec

end DocumentPath
