import TreeWalk.Proofs.Syntax.Reading
import TreeWalk.Proofs.Syntax.SourceText
import TreeWalk.Proofs.Text.Number

/-!
# The grammar of nodes

Which JSON values are nodes of a program, told by what their fields hold, and the term that each of them shows. The
term is bare: locations are no part of the grammar. An object is read as a term exactly if it is a node, and the term
is the one that the node shows. Values that hold the same in the fields of the grammar are read alike.
-/

namespace TreeWalk

theorem Operator.name_ne_empty {op : Operator} (h : op.isKnown) : op.name ≠ "" := by
  cases op with
  | unknown name => cases h
  | _ => decide

namespace Grammar

abbrev Members := List (String × Json)

/-- A number or a text that denotes a word in plain decimal. -/
inductive Integer : Json → Int64 → Prop
  | number {spelling : String} {n : Int64} (h : Text.Denotes spelling.toList n.toInt) : Integer (.number spelling) n
  | string {text : String} {n : Int64} (h : Text.Denotes text.toList n.toInt) : Integer (.string text) n

inductive Name : Json → Parameter → Prop
  | object {m : Members} {text : String} (spelling : Json.member? "text" m = some (.string text)) (named : text ≠ "") :
    Name (.object m) ⟨text, .unknown⟩

def OfKind (m : Members) (kind : String) : Prop := Json.member? "kind" m = some (.string kind)

/-- The nodes, and the bare term that each of them shows. A list that is no array counts as empty. -/
inductive Node : Json → Term → Prop
  | int {m : Members} {j : Json} {n : Int64} (kind : OfKind m "Int") (found : Json.member? "value" m = some j)
    (value : Integer j n) : Node (.object m) (.int .unknown n)
  | str {m : Members} {s : String} (kind : OfKind m "Str") (value : Json.member? "value" m = some (.string s)) :
    Node (.object m) (.str .unknown s.toUTF8)
  | bool {m : Members} {b : Bool} (kind : OfKind m "Bool") (value : Json.member? "value" m = some (.bool b)) :
    Node (.object m) (.bool .unknown b)
  | binary {m : Members} {jl jr : Json} {lhs rhs : Term} {op : Operator} (kind : OfKind m "Binary")
    (left : Json.member? "lhs" m = some jl) (lhsNode : Node jl lhs) (right : Json.member? "rhs" m = some jr)
    (rhsNode : Node jr rhs) (operator : Json.member? "op" m = some (.string op.name)) (known : op.isKnown) :
    Node (.object m) (.binary .unknown lhs op rhs)
  | var {m : Members} {text : String} (kind : OfKind m "Var") (spelling : Json.member? "text" m = some (.string text))
    (named : text ≠ "") : Node (.object m) (.var .unknown text)
  | letIn {m : Members} {jn jv jr : Json} {name : Parameter} {value next : Term} (kind : OfKind m "Let")
    (bound : Json.member? "name" m = some jn) (nameShown : Name jn name) (held : Json.member? "value" m = some jv)
    (valueNode : Node jv value) (rest : Json.member? "next" m = some jr) (nextNode : Node jr next) :
    Node (.object m) (.letIn .unknown name value next)
  | function {m : Members} {jb : Json} {params : List Parameter} {body : Term} (kind : OfKind m "Function")
    (bound : List.Forall₂ Name (listField m "parameters") params) (held : Json.member? "value" m = some jb)
    (bodyNode : Node jb body) : Node (.object m) (.function .unknown params body)
  | call {m : Members} {jc : Json} {callee : Term} {args : List Term} (kind : OfKind m "Call")
    (called : Json.member? "callee" m = some jc) (calleeNode : Node jc callee)
    (given : List.Forall₂ Node (listField m "arguments") args) : Node (.object m) (.call .unknown callee args true)
  | ite {m : Members} {jc jt je : Json} {c t e : Term} (kind : OfKind m "If")
    (condition : Json.member? "condition" m = some jc) (conditionNode : Node jc c)
    (thenBranch : Json.member? "then" m = some jt) (thenNode : Node jt t)
    (otherwise : Json.member? "otherwise" m = some je) (otherwiseNode : Node je e) :
    Node (.object m) (.ite .unknown c t e)
  | tuple {m : Members} {ja jb : Json} {a b : Term} (kind : OfKind m "Tuple") (left : Json.member? "first" m = some ja)
    (firstNode : Node ja a) (right : Json.member? "second" m = some jb) (secondNode : Node jb b) :
    Node (.object m) (.tuple .unknown a b)
  | first {m : Members} {j : Json} {t : Term} (kind : OfKind m "First") (held : Json.member? "value" m = some j)
    (node : Node j t) : Node (.object m) (.first .unknown t)
  | second {m : Members} {j : Json} {t : Term} (kind : OfKind m "Second") (held : Json.member? "value" m = some j)
    (node : Node j t) : Node (.object m) (.second .unknown t)
  | print {m : Members} {j : Json} {t : Term} (kind : OfKind m "Print") (held : Json.member? "value" m = some j)
    (node : Node j t) : Node (.object m) (.print .unknown t)
  | error {m : Members} (kind : OfKind m "Error") :
    Node (.object m) (.error .unknown (textField m "message") (textField m "full_text"))

section Fields

variable {m : Members} {key : String}

theorem textField_eq_iff {s : String} (hs : s ≠ "") : textField m key = s ↔ Json.member? key m = some (.string s) := by
  unfold textField
  constructor
  · intro h
    cases hj : Json.member? key m with
    | none => simp [hj, hs.symm] at h
    | some j => cases j <;> simp_all [Json.string?]
  · intro h
    simp [h, Json.string?]

theorem decodeInt_eq_ok {j : Option Json} {n : Int64} : decodeInt j = .ok n ↔ ∃ v, j = some v ∧ Integer v n := by
  constructor
  · intro h
    unfold decodeInt at h
    split at h
    · split at h <;> cases h
      next hread => exact ⟨_, rfl, .number (Text.readInt64_eq_ok.mp hread)⟩
    · split at h <;> cases h
      next hread => exact ⟨_, rfl, .string (Text.readInt64_eq_ok.mp hread)⟩
    · cases h
  · rintro ⟨v, rfl, hv⟩
    cases hv with
    | number hdenotes | string hdenotes => simp only [decodeInt, Text.readInt64_eq_ok.mpr hdenotes]

theorem decodeParameter_eq_ok {j : Option Json} {p : Parameter} (h : decodeParameter j = .ok p) :
    ∃ v, j = some v ∧ Name v p.bare := by
  unfold decodeParameter at h
  split at h
  · dsimp only at h
    split at h
    · cases h
    · next named =>
      cases h
      exact ⟨_, rfl, .object ((textField_eq_iff named).mp rfl) named⟩
  · cases h

theorem Name.decodeParameter {j : Json} {p : Parameter} (h : Name j p) :
    ∃ p', TreeWalk.decodeParameter (some j) = .ok p' ∧ p'.bare = p := by
  cases h with
  | @object m text spelling named =>
    have htext := (textField_eq_iff named).mpr spelling
    exact ⟨⟨text, nodeLocation m⟩, by simp [TreeWalk.decodeParameter, htext, named], rfl⟩

theorem ofKind_iff {kind : String} (hkind : kind ≠ "") : OfKind m kind ↔ textField m "kind" = kind :=
  (textField_eq_iff hkind).symm

end Fields

theorem Node.exists_members {j : Json} {t : Term} (h : Node j t) : ∃ m, j = .object m := by
  cases h <;> exact ⟨_, rfl⟩

section Lists

variable {α β γ : Type} {R : α → β → Prop} {l : List α} {l' : List β}

theorem forall₂_of_mem {S : α → β → Prop} (h : List.Forall₂ R l l') (hS : ∀ a, ∀ b ∈ l', R a b → S a b) :
    List.Forall₂ S l l' := by
  induction h with
  | nil => exact .nil
  | cons hab _ ih => exact .cons (hS _ _ (by simp) hab) (ih fun a b hb => hS a b (by simp [hb]))

theorem exists_forall₂_map {S : α → γ → Prop} {f : γ → β} (h : List.Forall₂ R l l')
    (hS : ∀ a, ∀ b ∈ l', R a b → ∃ c, S a c ∧ f c = b) : ∃ cs, List.Forall₂ S l cs ∧ cs.map f = l' := by
  induction h with
  | nil => exact ⟨[], .nil, rfl⟩
  | cons hab _ ih =>
    obtain ⟨c, hc, rfl⟩ := hS _ _ (by simp) hab
    obtain ⟨cs, hcs, rfl⟩ := ih fun a b hb => hS a b (by simp [hb])
    exact ⟨c :: cs, .cons hc hcs, rfl⟩

theorem forall₂_transfer {S : α → γ → Prop} {T : γ → β → Prop} {cs : List γ} (h : List.Forall₂ R l l')
    (hS : List.Forall₂ S l cs) (hT : ∀ a c, ∀ b ∈ l', R a b → S a c → T c b) : List.Forall₂ T cs l' := by
  induction h generalizing cs with
  | nil =>
    cases hS
    exact .nil
  | cons hab _ ih =>
    cases hS with
    | cons hac hrest => exact .cons (hT _ _ _ (by simp) hab hac) (ih hrest fun a c b hb => hT a c b (by simp [hb]))

end Lists

section Reading

theorem node_of_decodeNode {m : Members} {t : Term} (h : decodeNode (.object m) = .ok t) : Node (.object m) t.bare := by
  induction t using Term.partsInduction generalizing m with
  | h t ih =>
    have hheld : ∀ key part, HoldsTerm m key part → part ∈ t.parts →
        ∃ j, Json.member? key m = some j ∧ Node j part.bare := by
      rintro key part ⟨found, hfound, hread⟩ hpart
      exact ⟨_, hfound, ih part hpart hread⟩
    have hkind {kind : String} (hne : kind ≠ "") (hfield : textField m "kind" = kind) : OfKind m kind :=
      (ofKind_iff hne).mpr hfield
    cases spells_of_decodeNode h with
    | int kind value =>
      obtain ⟨j, hj, hvalue⟩ := decodeInt_eq_ok.mp value
      exact .int (hkind (by decide) kind) hj hvalue
    | str kind value => exact .str (hkind (by decide) kind) value
    | bool kind value => exact .bool (hkind (by decide) kind) value
    | binary kind left right operator known =>
      obtain ⟨jl, hl, hlhs⟩ := hheld _ _ left (by simp [Term.parts])
      obtain ⟨jr, hr, hrhs⟩ := hheld _ _ right (by simp [Term.parts])
      have hop := (textField_eq_iff (Operator.name_ne_empty known)).mp operator
      exact .binary (hkind (by decide) kind) hl hlhs hr hrhs hop known
    | var kind spelling named => exact .var (hkind (by decide) kind) ((textField_eq_iff named).mp spelling) named
    | letIn kind bound held rest =>
      obtain ⟨jn, hn, hname⟩ := decodeParameter_eq_ok bound
      obtain ⟨jv, hv, hvalue⟩ := hheld _ _ held (by simp [Term.parts])
      obtain ⟨jr, hr, hnext⟩ := hheld _ _ rest (by simp [Term.parts])
      exact .letIn (hkind (by decide) kind) hn hname hv hvalue hr hnext
    | function kind bound held =>
      obtain ⟨jb, hb, hbody⟩ := hheld _ _ held (by simp [Term.parts])
      refine .function (hkind (by decide) kind) ?_ hb hbody
      rw [List.forall₂_map_right_iff]
      refine bound.imp fun j p hp => ?_
      obtain ⟨_, ⟨⟩, hname⟩ := decodeParameter_eq_ok hp
      exact hname
    | call kind called given =>
      obtain ⟨jc, hc, hcallee⟩ := hheld _ _ called (by simp [Term.parts])
      refine .call (hkind (by decide) kind) hc hcallee ?_
      rw [Term.bareEach_eq, List.forall₂_map_right_iff]
      apply forall₂_of_mem given
      rintro _ arg harg ⟨found, rfl, hread⟩
      exact ih arg (List.mem_cons_of_mem _ harg) hread
    | ite kind condition thenBranch otherwise =>
      obtain ⟨jc, hc, hcond⟩ := hheld _ _ condition (by simp [Term.parts])
      obtain ⟨jt, ht, hthen⟩ := hheld _ _ thenBranch (by simp [Term.parts])
      obtain ⟨je, he, helse⟩ := hheld _ _ otherwise (by simp [Term.parts])
      exact .ite (hkind (by decide) kind) hc hcond ht hthen he helse
    | tuple kind left right =>
      obtain ⟨ja, ha, hfirst⟩ := hheld _ _ left (by simp [Term.parts])
      obtain ⟨jb, hb, hsecond⟩ := hheld _ _ right (by simp [Term.parts])
      exact .tuple (hkind (by decide) kind) ha hfirst hb hsecond
    | first kind held =>
      obtain ⟨j, hj, hnode⟩ := hheld _ _ held (by simp [Term.parts])
      exact .first (hkind (by decide) kind) hj hnode
    | second kind held =>
      obtain ⟨j, hj, hnode⟩ := hheld _ _ held (by simp [Term.parts])
      exact .second (hkind (by decide) kind) hj hnode
    | print kind held =>
      obtain ⟨j, hj, hnode⟩ := hheld _ _ held (by simp [Term.parts])
      exact .print (hkind (by decide) kind) hj hnode
    | error kind => exact .error (hkind (by decide) kind)

theorem Node.exists_decodeNode {j : Json} {s : Term} (h : Node j s) : ∃ t, decodeNode j = .ok t ∧ t.bare = s := by
  induction s using Term.partsInduction generalizing j with
  | h s ih =>
    have hheld : ∀ {m : Members} {key : String} {v : Json} {part : Term}, Json.member? key m = some v → Node v part →
        part ∈ s.parts → ∃ t, HoldsTerm m key t ∧ t.bare = part := by
      intro m key v part hfound hnode hpart
      obtain ⟨found, rfl⟩ := hnode.exists_members
      obtain ⟨t, ht, hbare⟩ := ih part hpart hnode
      exact ⟨t, ⟨found, hfound, ht⟩, hbare⟩
    have hkind {m : Members} {kind : String} (hne : kind ≠ "") (hof : OfKind m kind) : textField m "kind" = kind :=
      (ofKind_iff hne).mp hof
    cases h with
    | int kind found value =>
      exact ⟨_, (Spells.int (hkind (by decide) kind) (decodeInt_eq_ok.mpr ⟨_, found, value⟩)).decodeNode, rfl⟩
    | str kind value => exact ⟨_, (Spells.str (hkind (by decide) kind) value).decodeNode, rfl⟩
    | bool kind value => exact ⟨_, (Spells.bool (hkind (by decide) kind) value).decodeNode, rfl⟩
    | binary kind left lhsNode right rhsNode operator known =>
      obtain ⟨lhs, hl, rfl⟩ := hheld left lhsNode (by simp [Term.parts])
      obtain ⟨rhs, hr, rfl⟩ := hheld right rhsNode (by simp [Term.parts])
      have hop := (textField_eq_iff (Operator.name_ne_empty known)).mpr operator
      exact ⟨_, (Spells.binary (hkind (by decide) kind) hl hr hop known).decodeNode, rfl⟩
    | var kind spelling named =>
      exact ⟨_, (Spells.var (hkind (by decide) kind) ((textField_eq_iff named).mpr spelling) named).decodeNode, rfl⟩
    | letIn kind bound nameShown held valueNode rest nextNode =>
      obtain ⟨name, hname, rfl⟩ := nameShown.decodeParameter
      obtain ⟨value, hv, rfl⟩ := hheld held valueNode (by simp [Term.parts])
      obtain ⟨next, hn, rfl⟩ := hheld rest nextNode (by simp [Term.parts])
      rw [← bound] at hname
      exact ⟨_, (Spells.letIn (hkind (by decide) kind) hname hv hn).decodeNode, rfl⟩
    | function kind bound held bodyNode =>
      obtain ⟨body, hb, rfl⟩ := hheld held bodyNode (by simp [Term.parts])
      obtain ⟨params, hparams, rfl⟩ := exists_forall₂_map bound fun j p _ hp => hp.decodeParameter
      exact ⟨_, (Spells.function (hkind (by decide) kind) hparams hb).decodeNode, rfl⟩
    | @call m jc shown args kind called calleeNode given =>
      obtain ⟨callee, hc, rfl⟩ := hheld called calleeNode (by simp [Term.parts])
      have hargs : ∀ j, ∀ arg ∈ args, Node j arg → ∃ t, IsArgument j t ∧ t.bare = arg := by
        intro j arg harg hnode
        obtain ⟨m, rfl⟩ := hnode.exists_members
        obtain ⟨t, ht, hbare⟩ := ih arg (List.mem_cons_of_mem _ harg) hnode
        exact ⟨t, ⟨m, rfl, ht⟩, hbare⟩
      obtain ⟨args, hgiven, rfl⟩ := exists_forall₂_map given hargs
      refine ⟨_, (Spells.call (hkind (by decide) kind) hc hgiven).decodeNode, ?_⟩
      rw [Term.bare, Term.bareEach_eq]
    | ite kind condition conditionNode thenBranch thenNode otherwise otherwiseNode =>
      obtain ⟨c, hc, rfl⟩ := hheld condition conditionNode (by simp [Term.parts])
      obtain ⟨t, ht, rfl⟩ := hheld thenBranch thenNode (by simp [Term.parts])
      obtain ⟨e, he, rfl⟩ := hheld otherwise otherwiseNode (by simp [Term.parts])
      exact ⟨_, (Spells.ite (hkind (by decide) kind) hc ht he).decodeNode, rfl⟩
    | tuple kind left firstNode right secondNode =>
      obtain ⟨a, ha, rfl⟩ := hheld left firstNode (by simp [Term.parts])
      obtain ⟨b, hb, rfl⟩ := hheld right secondNode (by simp [Term.parts])
      exact ⟨_, (Spells.tuple (hkind (by decide) kind) ha hb).decodeNode, rfl⟩
    | first kind held node =>
      obtain ⟨t, ht, rfl⟩ := hheld held node (by simp [Term.parts])
      exact ⟨_, (Spells.first (hkind (by decide) kind) ht).decodeNode, rfl⟩
    | second kind held node =>
      obtain ⟨t, ht, rfl⟩ := hheld held node (by simp [Term.parts])
      exact ⟨_, (Spells.second (hkind (by decide) kind) ht).decodeNode, rfl⟩
    | print kind held node =>
      obtain ⟨t, ht, rfl⟩ := hheld held node (by simp [Term.parts])
      exact ⟨_, (Spells.print (hkind (by decide) kind) ht).decodeNode, rfl⟩
    | error kind => exact ⟨_, (Spells.error (hkind (by decide) kind)).decodeNode, rfl⟩

end Reading

section Alike

/-- The fields of a kind of node that hold one value each, names and the location apart. -/
def fields : String → List String
  | "Int" | "Str" | "Bool" | "Function" | "First" | "Second" | "Print" => ["value"]
  | "Binary" => ["lhs", "op", "rhs"]
  | "Var" => ["text"]
  | "Let" => ["value", "next"]
  | "Call" => ["callee"]
  | "If" => ["condition", "then", "otherwise"]
  | "Tuple" => ["first", "second"]
  | "Error" => ["message", "full_text"]
  | _ => []

/-- Values that introduce the same name: objects with the same text, whatever else they hold. -/
inductive SameName : Json → Json → Prop
  | same (j : Json) : SameName j j
  | object {m m' : Members} (text : Json.member? "text" m = Json.member? "text" m') : SameName (.object m) (.object m')

/-- Values that may differ at any depth, but only in locations and in fields that their kind of node does not have. -/
inductive SameNode : Json → Json → Prop
  | same (j : Json) : SameNode j j
  | object {m m' : Members} (kind : textField m "kind" = textField m' "kind")
    (name : textField m "kind" = "Let" → Option.Rel SameName (Json.member? "name" m) (Json.member? "name" m'))
    (parameters : textField m "kind" = "Function" →
      List.Forall₂ SameName (listField m "parameters") (listField m' "parameters"))
    (arguments : textField m "kind" = "Call" →
      List.Forall₂ SameNode (listField m "arguments") (listField m' "arguments"))
    (rest : ∀ key ∈ fields (textField m "kind"), Option.Rel SameNode (Json.member? key m) (Json.member? key m')) :
    SameNode (.object m) (.object m')

theorem SameName.symm {j j' : Json} (h : SameName j j') : SameName j' j := by
  cases h with
  | same => exact .same j
  | object text => exact .object text.symm

theorem Name.of_same {j j' : Json} {p : Parameter} (h : Name j p) (hsame : SameName j j') : Name j' p := by
  cases hsame with
  | same => exact h
  | object text =>
    cases h with
    | object spelling named => exact .object (text ▸ spelling) named

def Alike (j j' : Json) : Prop := SameNode j j' ∨ SameNode j' j

def NamedLike (j j' : Json) : Prop := ∀ p, Name j p → Name j' p

/-- The members of two objects are, in the fields of their kind of node, in the relation. -/
structure Agree (R : Json → Json → Prop) (m m' : Members) : Prop where
  kind : textField m "kind" = textField m' "kind"
  name : textField m "kind" = "Let" → Option.Rel NamedLike (Json.member? "name" m) (Json.member? "name" m')
  parameters : textField m "kind" = "Function" →
    List.Forall₂ NamedLike (listField m "parameters") (listField m' "parameters")
  arguments : textField m "kind" = "Call" → List.Forall₂ R (listField m "arguments") (listField m' "arguments")
  rest : ∀ key ∈ fields (textField m "kind"), Option.Rel R (Json.member? key m) (Json.member? key m')

/-- A relation between values that are read alike. Only arrays and objects can be in it with other values. -/
structure Likeness (R : Json → Json → Prop) : Prop where
  object {m : Members} {j : Json} : R (.object m) j → ∃ m', j = .object m' ∧ Agree R m m'
  leaf {j j' : Json} : R j j' → (∀ m, j ≠ .object m) → (∀ items, j ≠ .array items) → j' = j
  string {j : Json} {s : String} : R j (.string s) → j = .string s

theorem rel_symm {α : Type} {R S : α → α → Prop} (hRS : ∀ a b, R a b → S b a) {x y : Option α} (h : Option.Rel R x y) :
    Option.Rel S y x := by
  cases h with
  | some hab => exact .some (hRS _ _ hab)
  | none => exact .none

theorem rel_imp {α : Type} {R S : α → α → Prop} (hRS : ∀ a b, R a b → S a b) {x y : Option α} (h : Option.Rel R x y) :
    Option.Rel S x y := by
  cases h with
  | some hab => exact .some (hRS _ _ hab)
  | none => exact .none

theorem SameName.namedLike {j j' : Json} (h : SameName j j') : NamedLike j j' := fun _ hp => hp.of_same h

theorem Agree.refl (m : Members) : Agree Alike m m where
  kind := rfl
  name _ := by cases Json.member? "name" m <;> constructor; exact fun _ hp => hp
  parameters _ := List.forall₂_same.mpr fun _ _ _ hp => hp
  arguments _ := List.forall₂_same.mpr fun _ _ => .inl (.same _)
  rest key _ := by cases Json.member? key m <;> constructor; exact .inl (.same _)

theorem Alike.exists_agree {m : Members} {j : Json} (h : Alike (.object m) j) :
    ∃ m', j = .object m' ∧ Agree Alike m m' := by
  rcases h with h | h
  · cases h with
    | same => exact ⟨m, rfl, .refl m⟩
    | object kind name parameters arguments rest =>
      exact ⟨_, rfl, kind, fun hk => rel_imp (fun _ _ => SameName.namedLike) (name hk),
        fun hk => (parameters hk).imp fun _ _ => SameName.namedLike, fun hk => (arguments hk).imp fun _ _ => .inl,
        fun key hkey => rel_imp (fun _ _ => .inl) (rest key hkey)⟩
  · cases h with
    | same => exact ⟨m, rfl, .refl m⟩
    | object kind name parameters arguments rest =>
      refine ⟨_, rfl, kind.symm, fun hk => ?_, fun hk => ?_, fun hk => ?_, fun key hkey => ?_⟩
      · exact rel_symm (fun _ _ hsame => hsame.symm.namedLike) (name (kind.trans hk))
      · exact List.Forall₂.flip ((parameters (kind.trans hk)).imp fun _ _ hsame => hsame.symm.namedLike)
      · exact List.Forall₂.flip ((arguments (kind.trans hk)).imp fun _ _ => .inr)
      · exact rel_symm (fun _ _ => .inr) (rest key (kind ▸ hkey))

theorem Alike.eq_or_objects {j j' : Json} (h : Alike j j') : j' = j ∨ ∃ m m', j = .object m ∧ j' = .object m' := by
  rcases h with h | h
  · cases h with
    | same => exact .inl rfl
    | object => exact .inr ⟨_, _, rfl, rfl⟩
  · cases h with
    | same => exact .inl rfl
    | object => exact .inr ⟨_, _, rfl, rfl⟩

theorem alike_likeness : Likeness Alike where
  object := Alike.exists_agree
  leaf h hobject _ := by
    rcases h.eq_or_objects with rfl | ⟨m, _, rfl, -⟩
    · rfl
    · exact absurd rfl (hobject m)
  string h := by
    rcases h.eq_or_objects with rfl | ⟨_, _, -, h⟩
    · rfl
    · cases h

section Likeness

variable {R : Json → Json → Prop} {j j' : Json}

theorem Integer.of_like {n : Int64} (h : Integer j n) (hR : Likeness R) (hlike : R j j') : Integer j' n := by
  have hleaf : j' = j := by
    cases h with
    | number | string => exact hR.leaf hlike (by simp) (by simp)
  exact hleaf ▸ h

theorem Likeness.string?_eq (hR : Likeness R) (hlike : R j j') : j.string? = j'.string? := by
  cases j' with
  | string s => rw [hR.string hlike]
  | _ =>
    cases j with
    | string s => cases hR.leaf hlike (by simp) (by simp)
    | _ => rfl

namespace Agree

variable {m m' : Members} {kind key : String}

theorem found (h : Agree R m m') (hkind : textField m "kind" = kind) (hkey : key ∈ fields kind)
    (hfound : Json.member? key m = some j) : ∃ j', Json.member? key m' = some j' ∧ R j j' := by
  have hrel := h.rest key (hkind.symm ▸ hkey)
  rw [hfound] at hrel
  generalize Json.member? key m' = found' at hrel
  cases hrel with
  | some hlike => exact ⟨_, rfl, hlike⟩

theorem leaf (h : Agree R m m') (hR : Likeness R) (hkind : textField m "kind" = kind) (hkey : key ∈ fields kind)
    (hfound : Json.member? key m = some j) (hobject : ∀ m, j ≠ .object m) (harray : ∀ items, j ≠ .array items) :
    Json.member? key m' = some j := by
  obtain ⟨j', hfound', hlike⟩ := h.found hkind hkey hfound
  exact hR.leaf hlike hobject harray ▸ hfound'

theorem textField_eq (h : Agree R m m') (hR : Likeness R) (hkind : textField m "kind" = kind) (hkey : key ∈ fields kind) :
    textField m key = textField m' key := by
  have hrel := h.rest key (hkind.symm ▸ hkey)
  unfold textField
  generalize Json.member? key m = found, Json.member? key m' = found' at hrel
  cases hrel with
  | none => rfl
  | some hlike => simp [hR.string?_eq hlike]

end Agree

theorem Node.of_like {s : Term} (h : Node j s) (hR : Likeness R) (hlike : R j j') : Node j' s := by
  induction s using Term.partsInduction generalizing j j' with
  | h s ih =>
    obtain ⟨m, rfl⟩ := h.exists_members
    obtain ⟨m', rfl, hagree⟩ := hR.object hlike
    have hkind {kind : String} (hne : kind ≠ "") (hof : OfKind m kind) : textField m "kind" = kind ∧ OfKind m' kind := by
      have hfield := (ofKind_iff hne).mp hof
      exact ⟨hfield, (ofKind_iff hne).mpr (hagree.kind ▸ hfield)⟩
    have hheld {kind key : String} {v : Json} {part : Term} (hk : textField m "kind" = kind) (hkey : key ∈ fields kind)
        (hfound : Json.member? key m = some v) (hnode : Node v part) (hpart : part ∈ s.parts) :
        ∃ v', Json.member? key m' = some v' ∧ Node v' part := by
      obtain ⟨v', hfound', hlike⟩ := hagree.found hk hkey hfound
      exact ⟨v', hfound', ih part hpart hnode hlike⟩
    cases h with
    | int kind found value =>
      obtain ⟨hk, hk'⟩ := hkind (by decide) kind
      obtain ⟨v', hfound', hlike⟩ := hagree.found hk (by decide) found
      exact .int hk' hfound' (value.of_like hR hlike)
    | str kind value =>
      obtain ⟨hk, hk'⟩ := hkind (by decide) kind
      exact .str hk' (hagree.leaf hR hk (by decide) value (by simp) (by simp))
    | bool kind value =>
      obtain ⟨hk, hk'⟩ := hkind (by decide) kind
      exact .bool hk' (hagree.leaf hR hk (by decide) value (by simp) (by simp))
    | binary kind left lhsNode right rhsNode operator known =>
      obtain ⟨hk, hk'⟩ := hkind (by decide) kind
      obtain ⟨jl, hl, hlhs⟩ := hheld hk (by decide) left lhsNode (by simp [Term.parts])
      obtain ⟨jr, hr, hrhs⟩ := hheld hk (by decide) right rhsNode (by simp [Term.parts])
      exact .binary hk' hl hlhs hr hrhs (hagree.leaf hR hk (by decide) operator (by simp) (by simp)) known
    | var kind spelling named =>
      obtain ⟨hk, hk'⟩ := hkind (by decide) kind
      exact .var hk' (hagree.leaf hR hk (by decide) spelling (by simp) (by simp)) named
    | letIn kind bound nameShown held valueNode rest nextNode =>
      obtain ⟨hk, hk'⟩ := hkind (by decide) kind
      obtain ⟨jv, hv, hvalue⟩ := hheld hk (by decide) held valueNode (by simp [Term.parts])
      obtain ⟨jr, hr, hnext⟩ := hheld hk (by decide) rest nextNode (by simp [Term.parts])
      have hname := hagree.name hk
      rw [bound] at hname
      generalize hbound : Json.member? "name" m' = found at hname
      cases hname with
      | some hnamed => exact .letIn hk' hbound (hnamed _ nameShown) hv hvalue hr hnext
    | function kind bound held bodyNode =>
      obtain ⟨hk, hk'⟩ := hkind (by decide) kind
      obtain ⟨jb, hb, hbody⟩ := hheld hk (by decide) held bodyNode (by simp [Term.parts])
      exact .function hk' (forall₂_transfer bound (hagree.parameters hk) fun _ _ p _ hp hnamed => hnamed p hp) hb hbody
    | call kind called calleeNode given =>
      obtain ⟨hk, hk'⟩ := hkind (by decide) kind
      obtain ⟨jc, hc, hcallee⟩ := hheld hk (by decide) called calleeNode (by simp [Term.parts])
      refine .call hk' hc hcallee (forall₂_transfer given (hagree.arguments hk) fun _ _ arg harg hnode hlike => ?_)
      exact ih arg (List.mem_cons_of_mem _ harg) hnode hlike
    | ite kind condition conditionNode thenBranch thenNode otherwise otherwiseNode =>
      obtain ⟨hk, hk'⟩ := hkind (by decide) kind
      obtain ⟨jc, hc, hcond⟩ := hheld hk (by decide) condition conditionNode (by simp [Term.parts])
      obtain ⟨jt, ht, hthen⟩ := hheld hk (by decide) thenBranch thenNode (by simp [Term.parts])
      obtain ⟨je, he, helse⟩ := hheld hk (by decide) otherwise otherwiseNode (by simp [Term.parts])
      exact .ite hk' hc hcond ht hthen he helse
    | tuple kind left firstNode right secondNode =>
      obtain ⟨hk, hk'⟩ := hkind (by decide) kind
      obtain ⟨ja, ha, hfirst⟩ := hheld hk (by decide) left firstNode (by simp [Term.parts])
      obtain ⟨jb, hb, hsecond⟩ := hheld hk (by decide) right secondNode (by simp [Term.parts])
      exact .tuple hk' ha hfirst hb hsecond
    | first kind held node =>
      obtain ⟨hk, hk'⟩ := hkind (by decide) kind
      obtain ⟨v, hv, hnode⟩ := hheld hk (by decide) held node (by simp [Term.parts])
      exact .first hk' hv hnode
    | second kind held node =>
      obtain ⟨hk, hk'⟩ := hkind (by decide) kind
      obtain ⟨v, hv, hnode⟩ := hheld hk (by decide) held node (by simp [Term.parts])
      exact .second hk' hv hnode
    | print kind held node =>
      obtain ⟨hk, hk'⟩ := hkind (by decide) kind
      obtain ⟨v, hv, hnode⟩ := hheld hk (by decide) held node (by simp [Term.parts])
      exact .print hk' hv hnode
    | error kind =>
      obtain ⟨hk, hk'⟩ := hkind (by decide) kind
      rw [hagree.textField_eq hR hk (by decide : "message" ∈ _), hagree.textField_eq hR hk (by decide : "full_text" ∈ _)]
      exact .error hk'

theorem Node.of_alike {s : Term} (h : Node j s) (halike : Alike j j') : Node j' s := h.of_like alike_likeness halike

end Likeness

end Alike

theorem bare_decodeNode_eq_some_iff {m : Members} {s : Term} :
    (decodeNode (.object m)).toOption.map Term.bare = some s ↔ Node (.object m) s := by
  constructor
  · intro h
    obtain ⟨t, ht, rfl⟩ := Option.map_eq_some_iff.mp h
    cases hread : decodeNode (.object m) with
    | error e => simp [hread, Except.toOption] at ht
    | ok t' =>
      obtain rfl : t' = t := by simpa [hread, Except.toOption] using ht
      exact node_of_decodeNode hread
  · intro h
    obtain ⟨t, ht, rfl⟩ := h.exists_decodeNode
    simp [ht, Except.toOption]

/-- An object is read exactly if it is a node of the grammar, and the term has the shape that the node shows and no
other. Objects that differ only in locations and in fields that the grammar does not name are both refused, or are read
as terms that differ only in locations. -/
theorem reading_follows_grammar (m : Members) :
    ((∃ t, decodeNode (.object m) = .ok t) ↔ ∃ s, Node (.object m) s) ∧
    (∀ t, decodeNode (.object m) = .ok t → ∀ s, Node (.object m) s ↔ s = t.bare) ∧
    ∀ m', SameNode (.object m) (.object m') →
      (decodeNode (.object m')).toOption.map Term.bare = (decodeNode (.object m)).toOption.map Term.bare := by
  refine ⟨⟨?_, ?_⟩, ?_, ?_⟩
  · rintro ⟨t, ht⟩
    exact ⟨t.bare, node_of_decodeNode ht⟩
  · rintro ⟨s, hs⟩
    obtain ⟨t, ht, -⟩ := hs.exists_decodeNode
    exact ⟨t, ht⟩
  · intro t ht s
    rw [← bare_decodeNode_eq_some_iff, ht]
    exact ⟨fun h => (Option.some.inj h).symm, fun h => congrArg some h.symm⟩
  · intro m' hsame
    apply Option.ext
    intro s
    rw [bare_decodeNode_eq_some_iff, bare_decodeNode_eq_some_iff]
    exact ⟨fun h => h.of_alike (.inr hsame), fun h => h.of_alike (.inl hsame)⟩

/-- A call with two arguments. What its function has for parameters is no list, and `extra` stands beside its fields. -/
def looseCall (extra : Members) : Members :=
  extra ++ [("kind", .string "Call"),
    ("callee", .object [("kind", .string "Function"), ("parameters", .bool true),
      ("value", .object [("value", .string "+05"), ("kind", .string "Int")])]),
    ("arguments", .array [.object [("kind", .string "Error"), ("message", .null)],
      .object (extra ++ [("kind", .string "Var"), ("text", .string "x")])])]

theorem reading_follows_grammar_looseCall :
    (∀ s, Node (.object (looseCall [("location", .bool true)])) s ↔
      s = .call .unknown (.function .unknown [] (.int .unknown 5)) [.error .unknown "" "", .var .unknown "x"] true) ∧
    (decodeNode (.object (looseCall []))).toOption.map Term.bare =
      (decodeNode (.object (looseCall [("location", .bool true)]))).toOption.map Term.bare := by
  constructor
  · exact (reading_follows_grammar _).2.1
      (.call .unknown (.function .unknown [] (.int .unknown 5)) [.error .unknown "" "", .var .unknown "x"] true) (by rfl)
  · apply (reading_follows_grammar _).2.2
    have hvar : SameNode (.object [("location", .bool true), ("kind", .string "Var"), ("text", .string "x")])
        (.object [("kind", .string "Var"), ("text", .string "x")]) := by
      refine .object rfl (fun hk => absurd hk (by decide)) (fun hk => absurd hk (by decide))
        (fun hk => absurd hk (by decide)) fun key hkey => ?_
      obtain rfl := List.mem_singleton.mp hkey
      exact .some (.same _)
    refine .object rfl (fun hk => absurd hk (by decide)) (fun hk => absurd hk (by decide))
      (fun _ => .cons (.same _) (.cons hvar .nil)) fun key hkey => ?_
    obtain rfl := List.mem_singleton.mp hkey
    exact .some (.same _)

end Grammar

end TreeWalk
