import TreeWalk.Proofs.Reference.Invariant
import TreeWalk.Proofs.Session.Meaning
import TreeWalk.Proofs.Syntax.RoundTrip

/-!
# Where failures come from

Whatever a run evaluates, in the bodies of closures too, is a node of the program, so the failure of a run is raised
by one of its nodes. The nodes of a program that was read are sound, so of the faults that find the program
itself at fault only that of an error node is left.
-/

namespace TreeWalk

theorem Term.part_of_operand {t part : Term} (h : part ∈ t.operands) : part ∈ t.parts := by
  cases t with
  | letIn loc name value next =>
    rw [List.mem_singleton.mp h]
    exact List.mem_cons_self
  | function => cases h
  | _ => exact h

namespace Reference

/-- The nodes of one term may be evaluated, in any environment. -/
def Discipline.nodesOf (root : Term) : Discipline Unit where
  ok _ _ t := t ∈ root.subterms
  operand h hpart := Term.subterms_trans h (Term.part_mem_subterms (Term.part_of_operand hpart))
  next _ h := Term.subterms_trans h (Term.part_mem_subterms (by simp [Term.parts]))
  later _ _ h := h
  body h _ := ⟨(), Term.subterms_trans h (Term.part_mem_subterms (by simp [Term.parts]))⟩

theorem raised_of_evaluate {limit depth : Nat} {t : Term} {output : Output} {e : Failure}
    (h : (evaluate limit depth t [[]] output).1 = .error e) : ∃ env, ∃ u ∈ t.subterms, Raised limit env u e := by
  have hfits : Env.Fits (.nodesOf t) [[]] := by simp [Env.Fits]
  have hok : (Discipline.nodesOf t).ok () [[]] t := t.self_mem_subterms
  obtain ⟨-, horigin, -⟩ := evaluate_upholds hfits hok limit depth output
  obtain ⟨_, env, u, -, hu, hraised⟩ := horigin e h
  exact ⟨env, u, hu, hraised⟩

theorem Raised.eq_parseError {limit : Nat} {env : Env} {t : Term} {f : Fault} (h : Raised limit env t (.fault f))
    (hsound : t.Sound) (hkind : f.kind = .malformedInput) :
    ∃ loc message fullText, t = .error loc message fullText ∧ f = .parseError loc message := by
  cases h with
  | missing => exact hsound.elim
  | parseError loc message fullText => exact ⟨loc, message, fullText, rfl, rfl⟩
  | operator lhs rhs hl hr hoperate =>
    rcases operate_error hl hr hoperate with ⟨name, rfl, -⟩ | ⟨-, h⟩ | ⟨-, h⟩ | h
    · cases hsound
    all_goals
      cases h
      cases hkind
  | _ => cases hkind

end Reference

namespace Interpreter

variable {i : Interpreter} {k : Caller} {p : Program}

theorem run_raised (hsession : Caller.Session i k) (hp : ¬p.expression.isAbsent) {e : Failure}
    (he : (i.run p).1 = .error e) :
    ∃ env, ∃ t ∈ p.expression.subterms, Reference.Raised i.machine.limit env t e := by
  have hrefines := congrArg Prod.fst (run_refines hsession hp)
  exact Reference.raised_of_evaluate (hrefines.trans (map_eq_error.mpr he))

theorem run_parseError (hsession : Caller.Session i k) (hp : p.expression.WellFormed) {f : Fault}
    (hf : (i.run p).1 = .error (.fault f)) (hkind : f.kind = .malformedInput) :
    ∃ loc message fullText, Term.error loc message fullText ∈ p.expression.subterms ∧ f = .parseError loc message := by
  have hpresent : ¬p.expression.isAbsent := by
    intro habsent
    have hself := hp _ p.expression.self_mem_subterms
    cases hexpression : p.expression <;> simp_all [Term.isAbsent, Term.Sound]
  obtain ⟨env, t, ht, hraised⟩ := run_raised hsession hpresent hf
  obtain ⟨loc, message, fullText, rfl, rfl⟩ := hraised.eq_parseError (hp t ht) hkind
  exact ⟨loc, message, fullText, ht, rfl⟩

/-- If the run of a program that was read finds the program malformed, it has come to an error node of it: the fault
has the message and the location of that node. The other faults of this kind, that there is no program, that an
expression is missing or that an operator has no meaning, do not come up, and without error nodes none does. -/
theorem read_program_malformed_at_error_node (source : ByteArray) (p : Program) (hp : Program.decode source = .ok p)
    (i : Interpreter) (k : Caller) (hsession : Caller.Session i k) :
    (∀ f, (i.run p).1 = .error (.fault f) → f.kind = .malformedInput →
      ∃ loc message fullText, Term.error loc message fullText ∈ p.expression.subterms ∧
        f.message = "parse error: " ++ message ∧ f.loc = loc) ∧
    (∀ f, (i.run p).1 = .error (.fault f) →
      f ≠ .noProgram ∧ f ≠ .missingExpression ∧ ∀ loc name, f ≠ .unknownOperator loc name) ∧
    ((∀ loc message fullText, Term.error loc message fullText ∉ p.expression.subterms) →
      ¬∃ f, (i.run p).1 = .error (.fault f) ∧ f.kind = .malformedInput) := by
  obtain ⟨members, hmembers⟩ := expression_of_decode hp
  have hwell := wellFormed_of_decodeNode hmembers
  refine ⟨fun f hf hkind => ?_, fun f hf => ?_, fun hclean => ?_⟩
  · obtain ⟨loc, message, fullText, hnode, rfl⟩ := run_parseError hsession hwell hf hkind
    exact ⟨loc, message, fullText, hnode, rfl, rfl⟩
  · have hparse : f.kind = .malformedInput → ∃ loc message, f = .parseError loc message := by
      intro hkind
      obtain ⟨loc, message, _, -, rfl⟩ := run_parseError hsession hwell hf hkind
      exact ⟨loc, message, rfl⟩
    refine ⟨?_, ?_, ?_⟩
    · rintro rfl
      obtain ⟨_, _, h⟩ := hparse rfl
      cases h
    · rintro rfl
      obtain ⟨_, _, h⟩ := hparse rfl
      cases h
    · rintro loc name rfl
      obtain ⟨_, _, h⟩ := hparse rfl
      cases h
  · rintro ⟨f, hf, hkind⟩
    obtain ⟨loc, message, fullText, hnode, -⟩ := run_parseError hsession hwell hf hkind
    exact hclean loc message fullText hnode

/-- `let f = fn () => <error>; f()`, where the parser gave up inside the body. -/
def brokenBody : Program :=
  ⟨"broken",
    .letIn .unknown ⟨"f", .unknown⟩ (.function .unknown [] (.error ⟨17, 19, "broken"⟩ "unexpected token" "=>"))
      (.call .unknown (.var .unknown "f") [] true), .unknown⟩

theorem read_program_malformed_at_error_node_brokenBody :
    Program.decode brokenBody.encode.toUTF8 = .ok brokenBody ∧
    ((new .unlimited 0).run brokenBody).1 = .error (.fault (.parseError ⟨17, 19, "broken"⟩ "unexpected token")) ∧
    ∃ loc message fullText, Term.error loc message fullText ∈ brokenBody.expression.subterms ∧
      (Fault.parseError ⟨17, 19, "broken"⟩ "unexpected token").message = "parse error: " ++ message ∧
      (Fault.parseError ⟨17, 19, "broken"⟩ "unexpected token").loc = loc := by
  have hread : Program.decode brokenBody.encode.toUTF8 = .ok brokenBody :=
    Program.decode_encode (p := brokenBody) (by decide) (by decide)
  have hrun : ((new .unlimited 0).run brokenBody).1 =
      .error (.fault (.parseError ⟨17, 19, "broken"⟩ "unexpected token")) := by rfl
  have hnode := read_program_malformed_at_error_node _ brokenBody hread _ _ (.new .unlimited 0)
  exact ⟨hread, hrun, hnode.1 _ hrun rfl⟩

end Interpreter

end TreeWalk
