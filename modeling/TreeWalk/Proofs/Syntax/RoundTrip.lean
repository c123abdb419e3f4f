import TreeWalk.Proofs.Json.RoundTrip
import TreeWalk.Proofs.Syntax.Reading
import TreeWalk.Syntax.Encode

/-!
# Reading programs back

A well-formed term is read from its own JSON text, and so is a program. Reading lists the arguments of every call, so
a call without a list of arguments comes back with an empty one.
-/

namespace TreeWalk

namespace Term

mutual

/-- The term with every call's arguments listed. -/
def listing : Term → Term
  | binary loc lhs op rhs => binary loc lhs.listing op rhs.listing
  | letIn loc name value next => letIn loc name value.listing next.listing
  | function loc params body => function loc params body.listing
  | call loc callee args _ => call loc callee.listing (listingOf args) true
  | ite loc c t e => ite loc c.listing t.listing e.listing
  | tuple loc a b => tuple loc a.listing b.listing
  | first loc t => first loc t.listing
  | second loc t => second loc t.listing
  | print loc t => print loc t.listing
  | t => t

def listingOf : List Term → List Term
  | [] => []
  | arg :: args => arg.listing :: listingOf args

end

theorem listingOf_eq (args : List Term) : listingOf args = args.map listing := by
  induction args with
  | nil => rfl
  | cons arg args ih => rw [listingOf, ih, List.map_cons]

theorem toJsonEach_eq (args : List Term) : toJsonEach args = args.map toJson := by
  induction args with
  | nil => rfl
  | cons arg args ih => rw [toJsonEach, ih, List.map_cons]

end Term

theorem decodeInt_decimal (n : Int64) : decodeInt (some (.number (Text.decimal n))) = .ok n := by
  simp only [decodeInt, Text.readInt64_decimal]

theorem decodeLocation_toJson (l : Location) : decodeLocation (some l.toJson) = l := by
  change Location.mk (((decodeInt (some (.number (Text.decimal l.start)))).toOption).getD 0)
    (((decodeInt (some (.number (Text.decimal l.stop)))).toOption).getD 0) l.filename = l
  rw [decodeInt_decimal, decodeInt_decimal]
  rfl

theorem decodeParameter_toJson {p : Parameter} (h : p.text ≠ "") : decodeParameter (some p.toJson) = .ok p := by
  change (if p.text = "" then Except.error ParameterError.noText
    else Except.ok (Parameter.mk p.text (decodeLocation (some p.location.toJson)))) = _
  rw [if_neg h, decodeLocation_toJson]

theorem IsArgument.held {members : List (String × Json)} {key : String} {j : Json} {t : Term} (h : IsArgument j t)
    (hmember : Json.member? key members = some j) : HoldsTerm members key t := by
  obtain ⟨found, rfl, hfound⟩ := h
  exact ⟨found, hmember, hfound⟩

theorem IsArgument.of_spells {members : List (String × Json)} {l : Location} {t : Location → Term}
    (hlocation : Json.member? "location" members = some l.toJson) (h : Spells members (t (nodeLocation members))) :
    IsArgument (.object members) (t l) := by
  have hl : nodeLocation members = l := by
    rw [nodeLocation, hlocation, decodeLocation_toJson]
  exact ⟨members, rfl, hl ▸ h.decodeNode⟩

namespace Term

theorem WellFormed.isArgument {t : Term} (h : t.WellFormed) : IsArgument t.toJson t.listing := by
  induction t using Term.partsInduction with
  | h t ih =>
    obtain ⟨hsound, hparts⟩ := wellFormed_iff.mp h
    have read (part : Term) (hpart : part ∈ t.parts) : IsArgument part.toJson part.listing :=
      ih part hpart (hparts part hpart)
    cases t with
    | absent => exact hsound.elim
    | int loc n => exact .of_spells (t := (.int · n)) rfl (.int rfl (decodeInt_decimal n))
    | str loc s =>
      have hread : IsArgument (Term.str loc s).toJson (.str loc (Text.decode s).toUTF8) :=
        .of_spells (t := (.str · (Text.decode s).toUTF8)) rfl (.str rfl rfl)
      rwa [Text.toUTF8_decode hsound] at hread
    | bool loc b => exact .of_spells (t := (.bool · b)) rfl (.bool rfl rfl)
    | binary loc lhs op rhs =>
      exact .of_spells (t := (.binary · lhs.listing op rhs.listing)) rfl
        (.binary rfl ((read lhs (by simp [parts])).held rfl) ((read rhs (by simp [parts])).held rfl) rfl hsound)
    | var loc text => exact .of_spells (t := (.var · text)) rfl (.var rfl rfl hsound)
    | letIn loc name value next =>
      exact .of_spells (t := (.letIn · name value.listing next.listing)) rfl
        (.letIn rfl (decodeParameter_toJson hsound) ((read value (by simp [parts])).held rfl)
          ((read next (by simp [parts])).held rfl))
    | function loc params body =>
      have hparams : List.Forall₂ (fun j p => decodeParameter (some j) = .ok p) (params.map Parameter.toJson) params := by
        rw [List.forall₂_map_left_iff, List.forall₂_same]
        exact fun p hp => decodeParameter_toJson (hsound p hp)
      exact .of_spells (t := (.function · params body.listing)) rfl
        (.function rfl hparams ((read body (by simp [parts])).held rfl))
    | call loc callee args listed =>
      have hcallee := read callee (by simp [parts])
      have hargs : List.Forall₂ IsArgument (toJsonEach args) (listingOf args) := by
        rw [toJsonEach_eq, listingOf_eq, List.forall₂_map_left_iff, List.forall₂_map_right_iff, List.forall₂_same]
        exact fun arg harg => read arg (by simp [parts, harg])
      -- without a list of arguments there are none to read
      have hgiven : List.Forall₂ IsArgument
          (((if args.isEmpty && !listed then Json.null else .array (toJsonEach args)).array?).getD [])
          (listingOf args) := by
        split
        · next hnone =>
          simp only [Bool.and_eq_true, List.isEmpty_iff] at hnone
          rw [hnone.1]
          exact .nil
        · exact hargs
      exact .of_spells (t := (.call · callee.listing (listingOf args) true)) rfl (.call rfl (hcallee.held rfl) hgiven)
    | ite loc c t e =>
      exact .of_spells (t := (.ite · c.listing t.listing e.listing)) rfl
        (.ite rfl ((read c (by simp [parts])).held rfl) ((read t (by simp [parts])).held rfl)
          ((read e (by simp [parts])).held rfl))
    | tuple loc a b =>
      exact .of_spells (t := (.tuple · a.listing b.listing)) rfl
        (.tuple rfl ((read a (by simp [parts])).held rfl) ((read b (by simp [parts])).held rfl))
    | first loc t =>
      exact .of_spells (t := (.first · t.listing)) rfl (.first rfl ((read t (by simp [parts])).held rfl))
    | second loc t =>
      exact .of_spells (t := (.second · t.listing)) rfl (.second rfl ((read t (by simp [parts])).held rfl))
    | print loc t =>
      exact .of_spells (t := (.print · t.listing)) rfl (.print rfl ((read t (by simp [parts])).held rfl))
    | error loc message fullText => exact .of_spells (t := (.error · message fullText)) rfl (.error rfl)

end Term

section Plain

open Json (Plain)

theorem Location.toJson_plain (l : Location) : l.toJson.Plain := by
  apply Plain.object
  intro m hm
  simp only [List.mem_cons, List.not_mem_nil, or_false] at hm
  rcases hm with rfl | rfl | rfl
  · exact .number l.start
  · exact .number l.stop
  · exact .string l.filename

theorem Parameter.toJson_plain (p : Parameter) : p.toJson.Plain := by
  apply Plain.object
  intro m hm
  rcases List.mem_pair.mp hm with rfl | rfl
  · exact .string p.text
  · exact p.location.toJson_plain

theorem plain_node {kind : String} {l : Location} {fields : List (String × Json)} (h : ∀ m ∈ fields, m.2.Plain) :
    (Json.object (("kind", .string kind) :: ("location", l.toJson) :: fields)).Plain := by
  apply Plain.object
  intro m hm
  rcases List.mem_cons.mp hm with rfl | hm
  · exact .string kind
  · rcases List.mem_cons.mp hm with rfl | hm
    · exact l.toJson_plain
    · exact h m hm

theorem Term.toJson_plain (t : Term) : t.toJson.Plain := by
  induction t using Term.partsInduction with
  | h t ih =>
    cases t with
    | absent => exact .null
    | int loc n =>
      apply plain_node
      intro m hm
      obtain rfl := List.mem_singleton.mp hm
      exact .number n
    | str loc s => exact plain_node (by simpa using Plain.string _)
    | bool loc b => exact plain_node (by simpa using Plain.bool b)
    | binary loc lhs op rhs => exact plain_node (by simpa [Term.parts, Plain.string] using ih)
    | var loc text => exact plain_node (by simpa using Plain.string text)
    | letIn loc name value next => exact plain_node (by simpa [Term.parts, name.toJson_plain] using ih)
    | function loc params body =>
      have hparams : (Json.array (params.map Parameter.toJson)).Plain :=
        .array (by simpa using fun p _ => p.toJson_plain)
      exact plain_node (by simpa [Term.parts, hparams] using ih)
    | call loc callee args listed =>
      have hargs : (if args.isEmpty && !listed then Json.null else .array (Term.toJsonEach args)).Plain := by
        split
        · exact .null
        · rw [Term.toJsonEach_eq]
          exact .array (by simpa using fun arg harg => ih arg (by simp [Term.parts, harg]))
      apply plain_node
      intro m hm
      rcases List.mem_pair.mp hm with rfl | rfl
      · exact ih callee (by simp [Term.parts])
      · exact hargs
    | error loc message fullText => exact plain_node (by simp [Plain.string])
    | _ => exact plain_node (by simpa [Term.parts] using ih)

theorem Program.toJson_plain (p : Program) : p.toJson.Plain := by
  apply Plain.object
  intro m hm
  simp only [List.mem_cons, List.not_mem_nil, or_false] at hm
  rcases hm with rfl | rfl | rfl
  · exact .string p.name
  · exact p.expression.toJson_plain
  · exact p.location.toJson_plain

end Plain

theorem decodeObject_write {j : Json} (kind : SourceKind) {members : List (String × Json)} (hj : j = .object members)
    (hplain : j.Plain) (hdepth : j.depth ≤ Json.maxDepth) : decodeObject kind j.write.toUTF8 = .ok members := by
  have hread : Json.read j.write.toUTF8.data.toList = .ok j := Json.read_write hplain hdepth
  rw [decodeObject, hread, hj]

theorem Term.decode_encode {t : Term} (h : t.WellFormed) (hdepth : t.toJson.depth ≤ Json.maxDepth) :
    Term.decode t.encode.toUTF8 = .ok t.listing := by
  obtain ⟨members, hmembers, hread⟩ := h.isArgument
  rw [Term.decode, Term.encode, decodeObject_write .term hmembers t.toJson_plain hdepth]
  exact hread

theorem Program.decode_encode {p : Program} (h : p.expression.WellFormed) (hdepth : p.toJson.depth ≤ Json.maxDepth) :
    Program.decode p.encode.toUTF8 = .ok { p with expression := p.expression.listing } := by
  obtain ⟨found, hfound, hread⟩ := h.isArgument
  apply bind_eq_ok.mpr ⟨_, decodeObject_write .file rfl p.toJson_plain hdepth, ?_⟩
  have hexpression : Json.member? "expression" [("name", .string p.name), ("expression", p.expression.toJson),
      ("location", p.location.toJson)] = some (.object found) := by
    rw [← hfound]
    rfl
  rw [decodeMember_eq, hexpression]
  apply bind_eq_ok.mpr ⟨_, hread, ?_⟩
  change Except.ok (Program.mk p.name p.expression.listing (decodeLocation (some p.location.toJson))) = _
  rw [decodeLocation_toJson]

theorem listing_of_decodeNode {members : List (String × Json)} {t : Term}
    (h : decodeNode (.object members) = .ok t) : t.listing = t := by
  induction t using Term.partsInduction generalizing members with
  | h t ih =>
    have hspells := spells_of_decodeNode h
    have hparts (part : Term) (hpart : part ∈ t.parts) : part.listing = part := by
      obtain ⟨found, hfound⟩ := hspells.part_read hpart
      exact ih part hpart hfound
    cases hspells with
    | @call callee args kind called given =>
      have hargs : args.map Term.listing = args.map id :=
        List.map_congr_left fun arg harg => hparts arg (by simp [Term.parts, harg])
      rw [Term.listing, hparts callee (by simp [Term.parts]), Term.listingOf_eq, hargs, List.map_id]
    | _ => simp_all [Term.listing, Term.parts]

/-- Well-formed terms and programs are read from their own JSON texts, with the arguments of every call listed, if
the texts do not nest too deeply. Whatever is read from a text is well formed, and read from its own text as it is. -/
theorem reading_undoes_writing :
    (∀ t : Term, t.WellFormed → t.toJson.depth ≤ Json.maxDepth → Term.decode t.encode.toUTF8 = .ok t.listing) ∧
    (∀ p : Program, p.expression.WellFormed → p.toJson.depth ≤ Json.maxDepth →
      Program.decode p.encode.toUTF8 = .ok { p with expression := p.expression.listing }) ∧
    (∀ (source : ByteArray) (t : Term), Term.decode source = .ok t →
      t.WellFormed ∧ (t.toJson.depth ≤ Json.maxDepth → Term.decode t.encode.toUTF8 = .ok t)) ∧
    ∀ (source : ByteArray) (p : Program), Program.decode source = .ok p →
      p.expression.WellFormed ∧ (p.toJson.depth ≤ Json.maxDepth → Program.decode p.encode.toUTF8 = .ok p) := by
  refine ⟨fun t => Term.decode_encode, fun p => Program.decode_encode, ?_, ?_⟩
  · intro source t hread
    obtain ⟨members, -, hnode⟩ := bind_eq_ok.mp hread
    have hwell := wellFormed_of_decodeNode hnode
    refine ⟨hwell, fun hdepth => ?_⟩
    rw [Term.decode_encode hwell hdepth, listing_of_decodeNode hnode]
  · intro source p hread
    obtain ⟨members, hnode⟩ := expression_of_decode hread
    have hwell := wellFormed_of_decodeNode hnode
    refine ⟨hwell, fun hdepth => ?_⟩
    rw [Program.decode_encode hwell hdepth, listing_of_decodeNode hnode]

/-- `let é = "<\"é\n>"; f()`, where the call lists no arguments. -/
def awkward : Program :=
  ⟨"a\tb", .letIn ⟨Int64.minValue, Int64.maxValue, "\u2028"⟩ ⟨"é", ⟨-1, 0, "\\"⟩⟩ (.str .unknown "<\"é\n>".toUTF8)
    (.call .unknown (.var .unknown "f") [] false), .unknown⟩

theorem reading_undoes_writing_awkward :
    awkward.expression.WellFormed ∧ awkward.toJson.depth ≤ Json.maxDepth ∧
    Program.decode awkward.encode.toUTF8 = .ok { awkward with expression := awkward.expression.listing } ∧
    Term.decode awkward.expression.listing.encode.toUTF8 = .ok awkward.expression.listing := by
  have hwell : awkward.expression.WellFormed := by decide
  have hdepth : awkward.toJson.depth ≤ Json.maxDepth := by decide
  have hterm : awkward.expression.toJson.depth ≤ Json.maxDepth := by decide
  have hlisted : awkward.expression.listing.toJson.depth ≤ Json.maxDepth := by decide
  exact ⟨hwell, hdepth, reading_undoes_writing.2.1 awkward hwell hdepth,
    (reading_undoes_writing.2.2.1 _ _ (reading_undoes_writing.1 _ hwell hterm)).2 hlisted⟩

end TreeWalk
