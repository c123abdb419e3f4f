import TreeWalk.Proofs.Reference.BlockScope
import TreeWalk.Proofs.Session.Meaning

/-!
# Block scope

A program whose `let`s and parameters all have different names runs as if each `let` opened a block of its own.
-/

namespace TreeWalk

/-- Equal scalars, pairs of values that resemble each other, or closures with the same parameters and body. -/
inductive Value.Resembles : Value → Reference.Value → Prop
  | absent : Resembles .absent .absent
  | int (n : Int64) : Resembles (.int n) (.int n)
  | str (s : ByteArray) : Resembles (.str s) (.str s)
  | bool (b : Bool) : Resembles (.bool b) (.bool b)
  | pair {a b : Value} {x y : Reference.Value} (ha : Resembles a x) (hb : Resembles b y) :
    Resembles (.pair a b) (.pair x y)
  | closure (c : Closure) (env : Reference.Env) : Resembles (.closure c) (.closure c.params c.body env)

theorem Store.resembles_of_read {s : Store} {v : Value} {w : Reference.Value}
    (h : Reference.SameShape (s.read v) w) : v.Resembles w := by
  induction v generalizing w with
  | absent =>
    cases h
    exact .absent
  | int n =>
    cases h
    exact .int n
  | str b =>
    cases h
    exact .str b
  | bool b =>
    cases h
    exact .bool b
  | pair a b iha ihb =>
    rw [read_pair] at h
    cases h with
    | pair ha hb => exact .pair (iha ha) (ihb hb)
  | closure c =>
    obtain ⟨env, hread⟩ := s.exists_read_closure c
    rw [hread] at h
    obtain ⟨params, body, scope⟩ := c
    cases h with
    | closure _ _ _ env' => exact .closure ⟨params, body, scope⟩ env'

namespace Interpreter

/-- A program that is well scoped under no names, and in which all names of `let`s and all parameters are different, has
the output of block-scoped evaluation, and the same failure or a value that resembles the one found there, closures
having the same parameters and body; whatever the limit, the output and the session it is a part of. -/
theorem run_is_block_scoped (i : Interpreter) (k : Caller) (hsession : Caller.Session i k) (p : Program)
    (hscoped : p.expression.WellScoped []) (hdistinct : p.expression.binders.Nodup) :
    Matches Value.Resembles (i.run p).1 (Reference.Block.run i.machine.limit p i.machine.output).1 ∧
    (i.run p).2.machine.output = (Reference.Block.run i.machine.limit p i.machine.output).2 := by
  by_cases hp : p.expression.isAbsent
  · rw [run_absent hp, Reference.Block.run, if_pos hp]
    exact ⟨rfl, rfl⟩
  · have hnew : Term.Distinct p.expression.binders [] := ⟨hdistinct, fun _ _ h => nomatch h⟩
    have hclear : p.expression.Unshadowed [] := p.expression.unshadowed_of_distinct [] hnew
    have hempty : Reference.InScope [] [[]] [] := by rintro x ⟨⟩
    have hfollows := Reference.evalWith_blockwise (Reference.enter_follows i.machine.limit i.machine.limit) p.expression
      [] [] [] ⟨[], i.machine.output⟩ hscoped hclear hempty
    have hrefines := run_refines hsession hp
    have hresult : _ = (i.run p).1.map (i.run p).2.machine.store.read := congrArg Prod.fst hrefines
    have houtput : _ = (i.run p).2.machine.output := congrArg (fun outcome => outcome.2.1) hrefines
    rw [Reference.Block.run, if_neg hp]
    constructor
    · have hmatches : Matches Reference.Similar ((i.run p).1.map (i.run p).2.machine.store.read)
          (((Reference.Block.evalWith (Reference.Block.enter i.machine.limit i.machine.limit) []
            p.expression).run i.machine.output).1.map id) := by
        rw [← hresult, Except.map_id]
        exact hfollows.result
      exact hmatches.of_map fun v w _ _ hvw => Store.resembles_of_read hvw.sameShape
    · exact houtput.symm.trans hfollows.output

/-- `let f = fn (a) => (let b = a; b) + a; print((let c = 1; f(c)) + (let d = 2; d))` -/
def blocksInOperands : Program :=
  .inline (.letIn .unknown ⟨"f", .unknown⟩
    (.function .unknown [⟨"a", .unknown⟩]
      (.binary .unknown (.letIn .unknown ⟨"b", .unknown⟩ (.var .unknown "a") (.var .unknown "b")) .add
        (.var .unknown "a")))
    (.print .unknown (.binary .unknown
      (.letIn .unknown ⟨"c", .unknown⟩ (.int .unknown 1)
        (.call .unknown (.var .unknown "f") [.var .unknown "c"] true))
      .add
      (.letIn .unknown ⟨"d", .unknown⟩ (.int .unknown 2) (.var .unknown "d")))))

theorem run_is_block_scoped_blocksInOperands :
    ((new .unlimited 0).run blocksInOperands).1 = .ok (.int 4) ∧
      (Reference.Block.run (new .unlimited 0).machine.limit blocksInOperands (new .unlimited 0).machine.output).1 =
        .ok (.int 4) ∧
      (Reference.Block.run (new .unlimited 0).machine.limit blocksInOperands
        (new .unlimited 0).machine.output).2.writes = ["4\n".toUTF8] := by
  have hscoped : blocksInOperands.expression.WellScoped [] := by
    simp [blocksInOperands, Program.inline, Term.WellScoped, Term.AllWellScoped]
  have hblock := run_is_block_scoped _ _ (.new .unlimited 0) blocksInOperands hscoped (by decide)
  have hrun : ((new .unlimited 0).run blocksInOperands).1 = .ok (.int 4) := by decide +kernel
  have hprinted : ((new .unlimited 0).run blocksInOperands).2.machine.output.writes = ["4\n".toUTF8] := by
    decide +kernel
  -- The elaborator must not unfold the run.
  generalize (new .unlimited 0).run blocksInOperands = outcome at hblock hrun hprinted ⊢
  obtain ⟨w, hw, hresembles⟩ := hblock.1.of_ok hrun
  cases hresembles
  exact ⟨hrun, hw, (congrArg Output.writes hblock.2).symm.trans hprinted⟩

-- Where a name is bound a second time, the `let` of an operand is seen after it.
example :
    let x : Term := .var .unknown "x"
    let p := Program.inline (.letIn .unknown ⟨"x", .unknown⟩ (.int .unknown 1)
      (.binary .unknown (.letIn .unknown ⟨"x", .unknown⟩ (.int .unknown 2) x) .add x))
    ((new .unlimited 0).run p).1 = .ok (.int 4) ∧
      (Reference.Block.run (new .unlimited 0).machine.limit p .unlimited).1 = .ok (.int 3) :=
  ⟨by decide +kernel, rfl⟩

end Interpreter

end TreeWalk
