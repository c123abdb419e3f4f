import Mathlib.Data.List.Forall2
import TreeWalk.Proofs.Syntax.Subterm
import TreeWalk.Syntax.Decode

/-!
# What is read as a term

The rules by which the members of an object spell a node, one for each kind of node. An object is read as a term
exactly if its members spell that term, so what reading gives is always well formed.
-/

namespace TreeWalk

theorem bind_eq_ok {ε α β : Type} {x : Except ε α} {f : α → Except ε β} {b : β} :
    (x >>= f) = .ok b ↔ ∃ a, x = .ok a ∧ f a = .ok b := by
  cases x with
  | error e => exact ⟨nofun, nofun⟩
  | ok a =>
    constructor
    · intro h
      exact ⟨a, rfl, h⟩
    · rintro ⟨_, ⟨⟩, hf⟩
      exact hf

theorem Operator.name_ofName (name : String) : (Operator.ofName name).name = name := by
  unfold ofName
  split <;> rfl

theorem Operator.ofName_name {op : Operator} (h : op.isKnown) : Operator.ofName op.name = op := by
  cases op with
  | unknown name => cases h
  | _ => rfl

def listField (members : List (String × Json)) (key : String) : List Json :=
  ((Json.member? key members).bind Json.array?).getD []

/-- The field holds an object that is read as the term. -/
def HoldsTerm (members : List (String × Json)) (key : String) (t : Term) : Prop :=
  ∃ found, Json.member? key members = some (.object found) ∧ decodeNode (.object found) = .ok t

def IsArgument (j : Json) (t : Term) : Prop := ∃ members, j = .object members ∧ decodeNode (.object members) = .ok t

/-- What the members of an object have to be for it to be read as a node. -/
inductive Spells (members : List (String × Json)) : Term → Prop
  | int {n : Int64} (kind : textField members "kind" = "Int")
    (value : decodeInt (Json.member? "value" members) = .ok n) : Spells members (.int (nodeLocation members) n)
  | str {s : String} (kind : textField members "kind" = "Str") (value : Json.member? "value" members = some (.string s)) :
    Spells members (.str (nodeLocation members) s.toUTF8)
  | bool {b : Bool} (kind : textField members "kind" = "Bool") (value : Json.member? "value" members = some (.bool b)) :
    Spells members (.bool (nodeLocation members) b)
  | binary {lhs rhs : Term} {op : Operator} (kind : textField members "kind" = "Binary")
    (left : HoldsTerm members "lhs" lhs) (right : HoldsTerm members "rhs" rhs)
    (operator : textField members "op" = op.name) (known : op.isKnown) :
    Spells members (.binary (nodeLocation members) lhs op rhs)
  | var {text : String} (kind : textField members "kind" = "Var") (spelling : textField members "text" = text)
    (named : text ≠ "") : Spells members (.var (nodeLocation members) text)
  | letIn {name : Parameter} {value next : Term} (kind : textField members "kind" = "Let")
    (bound : decodeParameter (Json.member? "name" members) = .ok name) (held : HoldsTerm members "value" value)
    (rest : HoldsTerm members "next" next) : Spells members (.letIn (nodeLocation members) name value next)
  | function {params : List Parameter} {body : Term} (kind : textField members "kind" = "Function")
    (bound : List.Forall₂ (fun j p => decodeParameter (some j) = .ok p) (listField members "parameters") params)
    (held : HoldsTerm members "value" body) : Spells members (.function (nodeLocation members) params body)
  | call {callee : Term} {args : List Term} (kind : textField members "kind" = "Call")
    (called : HoldsTerm members "callee" callee) (given : List.Forall₂ IsArgument (listField members "arguments") args) :
    Spells members (.call (nodeLocation members) callee args true)
  | ite {c t e : Term} (kind : textField members "kind" = "If") (condition : HoldsTerm members "condition" c)
    (thenBranch : HoldsTerm members "then" t) (otherwise : HoldsTerm members "otherwise" e) :
    Spells members (.ite (nodeLocation members) c t e)
  | tuple {a b : Term} (kind : textField members "kind" = "Tuple") (left : HoldsTerm members "first" a)
    (right : HoldsTerm members "second" b) : Spells members (.tuple (nodeLocation members) a b)
  | first {t : Term} (kind : textField members "kind" = "First") (held : HoldsTerm members "value" t) :
    Spells members (.first (nodeLocation members) t)
  | second {t : Term} (kind : textField members "kind" = "Second") (held : HoldsTerm members "value" t) :
    Spells members (.second (nodeLocation members) t)
  | print {t : Term} (kind : textField members "kind" = "Print") (held : HoldsTerm members "value" t) :
    Spells members (.print (nodeLocation members) t)
  | error (kind : textField members "kind" = "Error") :
    Spells members
      (.error (nodeLocation members) (textField members "message") (textField members "full_text"))

theorem decodeMember_eq (key : String) (members : List (String × Json)) :
    decodeMember key members =
      ((Json.member? key members).bind Json.object?).map fun found => decodeNode (.object found) := by
  induction members with
  | nil => rfl
  | cons m rest ih =>
    obtain ⟨k, v⟩ := m
    cases hrest : Json.member? key rest with
    | some w => cases v <;> simp [decodeMember, Json.member?, hrest, ih]
    | none => by_cases hk : k = key <;> cases v <;> simp [decodeMember, Json.member?, hrest, Json.object?, hk]

theorem decodeArgumentsOf_eq (loc : Location) (members : List (String × Json)) :
    decodeArgumentsOf loc members =
      ((Json.member? "arguments" members).bind Json.array?).map (decodeArguments loc 0) := by
  induction members with
  | nil => rfl
  | cons m rest ih =>
    obtain ⟨k, v⟩ := m
    cases hrest : Json.member? "arguments" rest with
    | some w => cases v <;> simp [decodeArgumentsOf, Json.member?, hrest, ih]
    | none =>
      by_cases hk : k = "arguments" <;> cases v <;> simp [decodeArgumentsOf, Json.member?, hrest, Json.array?, hk]

theorem decodeParameters_eq_ok {loc : Location} {index : Nat} {items : List Json} {params : List Parameter} :
    decodeParameters loc index items = .ok params ↔
      List.Forall₂ (fun j p => decodeParameter (some j) = .ok p) items params := by
  induction items generalizing index params with
  | nil => cases params <;> simp [decodeParameters]
  | cons j rest ih =>
    rw [decodeParameters]
    cases hj : decodeParameter (some j) with
    | error cause =>
      simp only [List.forall₂_cons_left_iff, hj]
      exact ⟨nofun, nofun⟩
    | ok p =>
      cases hrest : decodeParameters loc (index + 1) rest with
      | error e => cases params <;> simp [Except.map, ← @ih (index + 1), hj, hrest]
      | ok ps => cases params <;> simp [Except.map, ← @ih (index + 1), hj, hrest]

theorem decodeArguments_eq_ok {loc : Location} {index : Nat} {items : List Json} {args : List Term} :
    decodeArguments loc index items = .ok args ↔ List.Forall₂ IsArgument items args := by
  induction items generalizing index args with
  | nil => cases args <;> simp [decodeArguments]
  | cons j rest ih =>
    rw [List.forall₂_cons_left_iff]
    cases j with
    | object members =>
      rw [decodeArguments]
      simp only [bind_eq_ok, ih]
      constructor
      · rintro ⟨arg, harg, args', hargs, ⟨⟩⟩
        exact ⟨arg, args', ⟨members, rfl, harg⟩, hargs, rfl⟩
      · rintro ⟨arg, args', ⟨_, ⟨⟩, harg⟩, hargs, rfl⟩
        exact ⟨arg, harg, args', hargs, rfl⟩
    | _ => exact ⟨nofun, fun ⟨_, _, ⟨_, h, _⟩, _⟩ => nomatch h⟩

theorem arguments_eq_ok {loc : Location} {members : List (String × Json)} {args : List Term} :
    (decodeArgumentsOf loc members).getD (.ok []) = .ok args ↔
      List.Forall₂ IsArgument (listField members "arguments") args := by
  rw [decodeArgumentsOf_eq, listField]
  cases (Json.member? "arguments" members).bind Json.array? with
  | none => cases args <;> simp
  | some items => exact decodeArguments_eq_ok

theorem child_eq_ok {members : List (String × Json)} {key : String} {t : Term} {e : DecodeError} :
    (match decodeMember key members with
      | some result => result
      | none => .error e) = .ok t ↔ HoldsTerm members key t := by
  rw [decodeMember_eq, HoldsTerm]
  cases hmember : Json.member? key members with
  | none => simp
  | some j => cases j <;> simp [Json.object?]

theorem spells_of_decodeNode {members : List (String × Json)} {t : Term} (h : decodeNode (.object members) = .ok t) :
    Spells members t := by
  rw [decodeNode] at h
  dsimp only at h
  split at h
  · next kind =>
    split at h
    · next value =>
      cases h
      exact .int kind value
    · cases h
  · next kind =>
    split at h
    · next value =>
      cases h
      exact .str kind value
    · cases h
  · next kind =>
    split at h
    · next value =>
      cases h
      exact .bool kind value
    · cases h
  · next kind =>
    obtain ⟨lhs, hl, h⟩ := bind_eq_ok.mp h
    obtain ⟨rhs, hr, h⟩ := bind_eq_ok.mp h
    split at h
    · next known =>
      cases h
      exact .binary kind (child_eq_ok.mp hl) (child_eq_ok.mp hr) (Operator.name_ofName _).symm known
    · cases h
  · next kind =>
    split at h
    · cases h
    · next named =>
      cases h
      exact .var kind rfl named
  · next kind =>
    split at h
    · cases h
    · next bound =>
      obtain ⟨value, hv, h⟩ := bind_eq_ok.mp h
      obtain ⟨next, hn, h⟩ := bind_eq_ok.mp h
      cases h
      exact .letIn kind bound (child_eq_ok.mp hv) (child_eq_ok.mp hn)
  · next kind =>
    obtain ⟨params, hp, h⟩ := bind_eq_ok.mp h
    obtain ⟨body, hb, h⟩ := bind_eq_ok.mp h
    cases h
    exact .function kind (decodeParameters_eq_ok.mp hp) (child_eq_ok.mp hb)
  · next kind =>
    obtain ⟨callee, hc, h⟩ := bind_eq_ok.mp h
    obtain ⟨args, ha, h⟩ := bind_eq_ok.mp h
    cases h
    exact .call kind (child_eq_ok.mp hc) (arguments_eq_ok.mp ha)
  · next kind =>
    obtain ⟨c, hc, h⟩ := bind_eq_ok.mp h
    obtain ⟨t, ht, h⟩ := bind_eq_ok.mp h
    obtain ⟨e, he, h⟩ := bind_eq_ok.mp h
    cases h
    exact .ite kind (child_eq_ok.mp hc) (child_eq_ok.mp ht) (child_eq_ok.mp he)
  · next kind =>
    obtain ⟨a, ha, h⟩ := bind_eq_ok.mp h
    obtain ⟨b, hb, h⟩ := bind_eq_ok.mp h
    cases h
    exact .tuple kind (child_eq_ok.mp ha) (child_eq_ok.mp hb)
  · next kind =>
    obtain ⟨t, ht, h⟩ := bind_eq_ok.mp h
    cases h
    exact .first kind (child_eq_ok.mp ht)
  · next kind =>
    obtain ⟨t, ht, h⟩ := bind_eq_ok.mp h
    cases h
    exact .second kind (child_eq_ok.mp ht)
  · next kind =>
    obtain ⟨t, ht, h⟩ := bind_eq_ok.mp h
    cases h
    exact .print kind (child_eq_ok.mp ht)
  · next kind =>
    cases h
    exact .error kind
  · cases h
  · cases h

theorem Spells.decodeNode {members : List (String × Json)} {t : Term} (h : Spells members t) :
    decodeNode (.object members) = .ok t := by
  rw [TreeWalk.decodeNode]
  cases h with
  | int kind value => simp only [kind, value]
  | str kind value => simp only [kind, value]
  | bool kind value => simp only [kind, value]
  | binary kind left right operator known =>
    simp only [kind, bind_eq_ok, operator, Operator.ofName_name known, known, if_true]
    exact ⟨_, child_eq_ok.mpr left, _, child_eq_ok.mpr right, rfl⟩
  | var kind spelling named => simp only [kind, spelling, named, if_false]
  | letIn kind bound held rest =>
    simp only [kind, bound, bind_eq_ok]
    exact ⟨_, child_eq_ok.mpr held, _, child_eq_ok.mpr rest, rfl⟩
  | function kind bound held =>
    simp only [kind, bind_eq_ok]
    exact ⟨_, decodeParameters_eq_ok.mpr bound, _, child_eq_ok.mpr held, rfl⟩
  | call kind called given =>
    simp only [kind, bind_eq_ok]
    exact ⟨_, child_eq_ok.mpr called, _, arguments_eq_ok.mpr given, rfl⟩
  | ite kind condition thenBranch otherwise =>
    simp only [kind, bind_eq_ok]
    exact ⟨_, child_eq_ok.mpr condition, _, child_eq_ok.mpr thenBranch, _, child_eq_ok.mpr otherwise, rfl⟩
  | tuple kind left right =>
    simp only [kind, bind_eq_ok]
    exact ⟨_, child_eq_ok.mpr left, _, child_eq_ok.mpr right, rfl⟩
  | first kind held =>
    simp only [kind, bind_eq_ok]
    exact ⟨_, child_eq_ok.mpr held, rfl⟩
  | second kind held =>
    simp only [kind, bind_eq_ok]
    exact ⟨_, child_eq_ok.mpr held, rfl⟩
  | print kind held =>
    simp only [kind, bind_eq_ok]
    exact ⟨_, child_eq_ok.mpr held, rfl⟩
  | error kind => simp only [kind]

theorem decodeParameter_named {j : Option Json} {p : Parameter} (h : decodeParameter j = .ok p) : p.text ≠ "" := by
  unfold decodeParameter at h
  split at h
  · dsimp only at h
    split at h
    · cases h
    · next named =>
      cases h
      exact named
  · cases h

theorem exists_of_forall₂ {α β : Type} {R : α → β → Prop} {l : List α} {l' : List β} (h : List.Forall₂ R l l') {b : β}
    (hb : b ∈ l') : ∃ a, R a b := by
  induction h with
  | nil => cases hb
  | cons hr _ ih =>
    cases hb with
    | head => exact ⟨_, hr⟩
    | tail _ hrest => exact ih hrest

namespace Spells

variable {members : List (String × Json)} {t : Term}

theorem sound (h : Spells members t) : t.Sound := by
  cases h with
  | @str s kind value => exact s.isValidUTF8
  | binary kind left right operator known => exact known
  | var kind spelling named => exact named
  | letIn kind bound held rest => exact decodeParameter_named bound
  | function kind bound held =>
    intro p hp
    obtain ⟨j, hj⟩ := exists_of_forall₂ bound hp
    exact decodeParameter_named hj
  | _ => trivial

theorem part_read {part : Term} (h : Spells members t) (hpart : part ∈ t.parts) :
    ∃ found, TreeWalk.decodeNode (.object found) = .ok part := by
  have held : ∀ key, HoldsTerm members key part → ∃ found, TreeWalk.decodeNode (.object found) = .ok part :=
    fun _ ⟨found, _, hfound⟩ => ⟨found, hfound⟩
  cases h with
  | call kind called given =>
    rcases List.mem_cons.mp hpart with rfl | harg
    · exact held _ called
    · obtain ⟨_, found, -, hfound⟩ := exists_of_forall₂ given harg
      exact ⟨found, hfound⟩
  | ite kind condition thenBranch otherwise =>
    simp only [Term.parts, List.mem_cons, List.not_mem_nil, or_false] at hpart
    rcases hpart with rfl | rfl | rfl
    · exact held _ condition
    · exact held _ thenBranch
    · exact held _ otherwise
  | binary kind left right | letIn kind _ left right | tuple kind left right =>
    rcases List.mem_pair.mp hpart with rfl | rfl
    · exact held _ left
    · exact held _ right
  | function kind _ inner | first kind inner | second kind inner | print kind inner =>
    obtain rfl := List.mem_singleton.mp hpart
    exact held _ inner
  | _ => cases hpart

end Spells

theorem wellFormed_of_decodeNode {members : List (String × Json)} {t : Term}
    (h : decodeNode (.object members) = .ok t) : t.WellFormed := by
  induction t using Term.partsInduction generalizing members with
  | h t ih =>
    have hspells := spells_of_decodeNode h
    refine Term.wellFormed_iff.mpr ⟨hspells.sound, fun part hpart => ?_⟩
    obtain ⟨found, hfound⟩ := hspells.part_read hpart
    exact ih part hpart hfound

theorem Program.decode_eq_ok {source : ByteArray} {p : Program} :
    Program.decode source = .ok p ↔ ∃ members, decodeObject .file source = .ok members ∧
      HoldsTerm members "expression" p.expression ∧ p.name = textField members "name" ∧
      p.location = nodeLocation members := by
  simp only [Program.decode, bind_eq_ok, decodeMember_eq, HoldsTerm]
  refine exists_congr fun members => and_congr_right fun _ => ?_
  cases hmember : Json.member? "expression" members with
  | none => simp
  | some j =>
    cases j with
    | object found =>
      simp only [Option.bind_some, Json.object?, Option.map_some, bind_eq_ok, Option.some.injEq, Json.object.injEq,
        exists_eq_left']
      constructor
      · rintro ⟨t, ht, ⟨⟩⟩
        exact ⟨ht, rfl, rfl⟩
      · rintro ⟨ht, hname, hlocation⟩
        refine ⟨p.expression, ht, ?_⟩
        rw [← hname, ← hlocation]
        rfl
    | _ => simp [Json.object?]

theorem expression_of_decode {source : ByteArray} {p : Program} (h : Program.decode source = .ok p) :
    ∃ members, decodeNode (.object members) = .ok p.expression := by
  obtain ⟨_, -, ⟨found, -, hfound⟩, -⟩ := Program.decode_eq_ok.mp h
  exact ⟨found, hfound⟩

end TreeWalk
