import TreeWalk.Proofs.Syntax.Grammar
import TreeWalk.Proofs.Syntax.OneValue
import TreeWalk.Proofs.Syntax.RoundTrip

/-!
# Programs without their locations

Texts whose values differ only in members called `location` are both refused, or read as programs that differ only in
locations, provided that none of them nests too deeply. The source text of a term shows no location.
-/

namespace TreeWalk

namespace Term

mutual

@[simp] def unlocated : Term → Term
  | absent => absent
  | int _ n => int .unknown n
  | str _ s => str .unknown s
  | bool _ b => bool .unknown b
  | var _ text => var .unknown text
  | binary _ lhs op rhs => binary .unknown lhs.unlocated op rhs.unlocated
  | letIn _ name value next => letIn .unknown name.bare value.unlocated next.unlocated
  | function _ params body => function .unknown (params.map Parameter.bare) body.unlocated
  | call _ callee args listed => call .unknown callee.unlocated (unlocatedEach args) listed
  | ite _ c t e => ite .unknown c.unlocated t.unlocated e.unlocated
  | tuple _ a b => tuple .unknown a.unlocated b.unlocated
  | first _ t => first .unknown t.unlocated
  | second _ t => second .unknown t.unlocated
  | print _ t => print .unknown t.unlocated
  | error _ message fullText => error .unknown message fullText

def unlocatedEach : List Term → List Term
  | [] => []
  | t :: rest => t.unlocated :: unlocatedEach rest

end

theorem unlocatedEach_eq (ts : List Term) : unlocatedEach ts = ts.map unlocated := by
  induction ts with
  | nil => rfl
  | cons t ts ih => rw [unlocatedEach, ih, List.map_cons]

@[simp] theorem loc_unlocated (t : Term) : t.unlocated.loc = .unknown := by
  cases t <;> rfl

@[simp] theorem isAbsent_unlocated (t : Term) : t.unlocated.isAbsent = t.isAbsent := by
  cases t <;> rfl

@[simp] theorem isCompound_unlocated (t : Term) : t.unlocated.isCompound = t.isCompound := by
  cases t <;> rfl

theorem bare_eq (t : Term) : t.bare = t.listing.unlocated := by
  induction t using Term.partsInduction with
  | h t ih =>
    cases t with
    | call loc callee args listed =>
      have hargs : args.map bare = args.map fun arg => arg.listing.unlocated :=
        List.map_congr_left fun arg harg => ih arg (by simp [parts, harg])
      simp [listing, bareEach_eq, unlocatedEach_eq, listingOf_eq, hargs, ih callee (by simp [parts])]
    | _ => simp_all [listing, parts]

theorem renderAt_unlocated (t : Term) (indent : Nat) : t.unlocated.renderAt indent = t.renderAt indent := by
  induction t using Term.partsInduction generalizing indent with
  | h t ih =>
    cases t with
    | call loc callee args listed =>
      have hargs : args.map (renderAt indent ∘ unlocated) = args.map (renderAt indent) :=
        List.map_congr_left fun arg harg => ih arg (by simp [parts, harg]) indent
      simp [unlocatedEach_eq, renderEach_eq, hargs, ih callee (by simp [parts])]
    | function loc params body =>
      have hparams : params.map (Parameter.text ∘ Parameter.bare) = params.map Parameter.text := rfl
      simp [hparams, ih body (by simp [parts])]
    | _ => simp_all [parts, Parameter.bare]

theorem render_eq_of_unlocated {t t' : Term} (h : t.unlocated = t'.unlocated) : t.render = t'.render := by
  rw [render, render, ← renderAt_unlocated t, ← renderAt_unlocated t', h]

end Term

def Program.unlocated (p : Program) : Program := ⟨p.name, p.expression.unlocated, .unknown⟩

namespace Json

mutual

/-- A value without the members called `location`, at any depth. -/
def unlocated : Json → Json
  | .array items => .array (unlocatedEach items)
  | .object members => .object (unlocatedMembers members)
  | j => j

def unlocatedEach : List Json → List Json
  | [] => []
  | j :: rest => j.unlocated :: unlocatedEach rest

def unlocatedMembers : List (String × Json) → List (String × Json)
  | [] => []
  | (key, j) :: rest =>
    if key = "location" then unlocatedMembers rest else (key, j.unlocated) :: unlocatedMembers rest

end

def SameUnlocated (j j' : Json) : Prop := j.unlocated = j'.unlocated

theorem unlocatedEach_eq (items : List Json) : unlocatedEach items = items.map unlocated := by
  induction items with
  | nil => rfl
  | cons j rest ih => rw [unlocatedEach, ih, List.map_cons]

theorem member?_unlocatedMembers {key : String} (h : key ≠ "location") (members : List (String × Json)) :
    member? key (unlocatedMembers members) = (member? key members).map unlocated := by
  induction members with
  | nil => rfl
  | cons m rest ih =>
    obtain ⟨k, j⟩ := m
    by_cases hk : k = "location"
    · have hne : "location" ≠ key := h.symm
      rw [unlocatedMembers, if_pos hk, ih, hk, member?]
      cases member? key rest <;> simp [hne]
    · rw [unlocatedMembers, if_neg hk, member?, member?, ih]
      cases member? key rest with
      | some w => rfl
      | none => by_cases hkey : k = key <;> simp [hkey]

theorem textField_unlocatedMembers {key : String} (h : key ≠ "location") (members : List (String × Json)) :
    textField (unlocatedMembers members) key = textField members key := by
  rw [textField, textField, member?_unlocatedMembers h]
  cases member? key members with
  | none => rfl
  | some j => cases j <;> rfl

theorem listField_unlocatedMembers {key : String} (h : key ≠ "location") (members : List (String × Json)) :
    listField (unlocatedMembers members) key = (listField members key).map unlocated := by
  rw [listField, listField, member?_unlocatedMembers h, ← unlocatedEach_eq]
  cases member? key members with
  | none => rfl
  | some j => cases j <;> rfl

namespace SameUnlocated

variable {j j' : Json} {members members' : List (String × Json)} {key : String}

theorem exists_members (h : SameUnlocated (.object members) j) :
    ∃ members', j = .object members' ∧ unlocatedMembers members = unlocatedMembers members' := by
  cases j <;> simp_all [SameUnlocated, unlocated]

theorem eq_of_leaf (h : SameUnlocated j j') (hobject : ∀ m, j ≠ .object m) (harray : ∀ items, j ≠ .array items) :
    j' = j := by
  have hj : j.unlocated = j := by
    cases j with
    | array items => exact absurd rfl (harray items)
    | object members => exact absurd rfl (hobject members)
    | _ => rfl
  rw [SameUnlocated, hj] at h
  cases j' with
  | array items => exact absurd h (harray _)
  | object members => exact absurd h (hobject _)
  | _ => exact h.symm

theorem member? (h : unlocatedMembers members = unlocatedMembers members') (hkey : key ≠ "location") :
    Option.Rel SameUnlocated (Json.member? key members) (Json.member? key members') := by
  have hmap := member?_unlocatedMembers hkey members
  rw [h, member?_unlocatedMembers hkey members'] at hmap
  cases hfound : Json.member? key members <;> cases hfound' : Json.member? key members' <;> simp_all
  exact hmap.symm

theorem textField (h : unlocatedMembers members = unlocatedMembers members') (hkey : key ≠ "location") :
    TreeWalk.textField members key = TreeWalk.textField members' key := by
  rw [← textField_unlocatedMembers hkey members, h, textField_unlocatedMembers hkey]

theorem listField (h : unlocatedMembers members = unlocatedMembers members') (hkey : key ≠ "location") :
    List.Forall₂ SameUnlocated (TreeWalk.listField members key) (TreeWalk.listField members' key) := by
  have heach : List.Forall₂ Eq ((TreeWalk.listField members key).map unlocated)
      ((TreeWalk.listField members' key).map unlocated) := by
    rw [← listField_unlocatedMembers hkey, ← listField_unlocatedMembers hkey, h, List.forall₂_eq_eq_eq]
  rwa [List.forall₂_map_left_iff, List.forall₂_map_right_iff] at heach

theorem namedLike (h : SameUnlocated j j') : Grammar.NamedLike j j' := by
  intro p hp
  cases hp with
  | object spelling named =>
    obtain ⟨m', rfl, hmembers⟩ := h.exists_members
    have htext := (Grammar.textField_eq_iff named).mpr spelling
    rw [textField hmembers (by decide)] at htext
    exact .object ((Grammar.textField_eq_iff named).mp htext) named

end SameUnlocated

theorem location_notMem_fields (kind : String) : "location" ∉ Grammar.fields kind := by
  unfold Grammar.fields
  split <;> decide

theorem sameUnlocated_likeness : Grammar.Likeness SameUnlocated where
  object h := by
    obtain ⟨m', rfl, hmembers⟩ := h.exists_members
    refine ⟨m', rfl, SameUnlocated.textField hmembers (by decide), fun _ => ?_, fun _ => ?_, fun _ => ?_,
      fun key hkey => ?_⟩
    · exact Grammar.rel_imp (fun _ _ => SameUnlocated.namedLike) (SameUnlocated.member? hmembers (by decide))
    · exact (SameUnlocated.listField hmembers (by decide)).imp fun _ _ => SameUnlocated.namedLike
    · exact SameUnlocated.listField hmembers (by decide)
    · refine SameUnlocated.member? hmembers fun hlocation => ?_
      exact location_notMem_fields _ (hlocation ▸ hkey)
  leaf := SameUnlocated.eq_of_leaf
  string h := SameUnlocated.eq_of_leaf h.symm (by simp) (by simp)

end Json

section Reading

open Json (SameUnlocated FirstValue)

variable {m m' : List (String × Json)}

theorem decodeNode_of_sameUnlocated {t : Term} (h : SameUnlocated (.object m) (.object m'))
    (ht : decodeNode (.object m) = .ok t) : ∃ t', decodeNode (.object m') = .ok t' ∧ t'.unlocated = t.unlocated := by
  have hnode := (Grammar.node_of_decodeNode ht).of_like Json.sameUnlocated_likeness h
  obtain ⟨t', ht', hbare⟩ := hnode.exists_decodeNode
  refine ⟨t', ht', ?_⟩
  rwa [Term.bare_eq, Term.bare_eq, listing_of_decodeNode ht, listing_of_decodeNode ht'] at hbare

theorem HoldsTerm.of_sameUnlocated {key : String} {t : Term} (h : HoldsTerm m key t) (hkey : key ≠ "location")
    (hsame : Json.unlocatedMembers m = Json.unlocatedMembers m') :
    ∃ t', HoldsTerm m' key t' ∧ t'.unlocated = t.unlocated := by
  obtain ⟨found, hfound, ht⟩ := h
  have hrel := SameUnlocated.member? hsame hkey
  rw [hfound] at hrel
  generalize hfound' : Json.member? key m' = found' at hrel
  cases hrel with
  | some hlike =>
    obtain ⟨members, rfl, -⟩ := hlike.exists_members
    obtain ⟨t', ht', hunlocated⟩ := decodeNode_of_sameUnlocated hlike ht
    exact ⟨t', ⟨members, hfound', ht'⟩, hunlocated⟩

variable {source source' : ByteArray} {j j' : Json} {rest rest' : List UInt8}

theorem decode_of_sameUnlocated {p : Program} (hp : Program.decode source = .ok p)
    (hfirst : FirstValue source.data.toList j rest) (hfirst' : FirstValue source'.data.toList j' rest')
    (hdepth' : j'.depth ≤ Json.maxDepth) (hsame : SameUnlocated j j') :
    ∃ p', Program.decode source' = .ok p' ∧ p'.unlocated = p.unlocated := by
  obtain ⟨members, hmembers, hexpression, hname, -⟩ := Program.decode_eq_ok.mp hp
  obtain ⟨-, _, hread⟩ := decodeObject_eq_ok_iff.mp hmembers
  obtain ⟨rfl, -⟩ := hfirst.unique hread
  obtain ⟨members', rfl, hmembers'⟩ := hsame.exists_members
  obtain ⟨t, ht, hunlocated⟩ := hexpression.of_sameUnlocated (by decide) hmembers'
  have hread' : decodeObject .file source' = .ok members' := decodeObject_eq_ok_iff.mpr ⟨hdepth', rest', hfirst'⟩
  refine ⟨⟨textField members' "name", t, nodeLocation members'⟩, ?_, ?_⟩
  · exact Program.decode_eq_ok.mpr ⟨members', hread', ht, rfl, rfl⟩
  · rw [Program.unlocated, Program.unlocated, hunlocated, hname, SameUnlocated.textField hmembers' (by decide)]

theorem decode_unlocated_eq (hfirst : FirstValue source.data.toList j rest)
    (hfirst' : FirstValue source'.data.toList j' rest') (hdepth : j.depth ≤ Json.maxDepth)
    (hdepth' : j'.depth ≤ Json.maxDepth) (hsame : SameUnlocated j j') :
    (Program.decode source).toOption.map Program.unlocated =
      (Program.decode source').toOption.map Program.unlocated := by
  cases hp : Program.decode source with
  | ok p =>
    obtain ⟨p', hp', hunlocated⟩ := decode_of_sameUnlocated hp hfirst hfirst' hdepth' hsame
    simp [hp', Except.toOption, hunlocated]
  | error e =>
    cases hp' : Program.decode source' with
    | error e' => rfl
    | ok p' =>
      obtain ⟨p, hread, -⟩ := decode_of_sameUnlocated hp' hfirst' hfirst hdepth hsame.symm
      rw [hp] at hread
      cases hread

end Reading

end TreeWalk
