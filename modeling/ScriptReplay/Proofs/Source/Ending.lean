/-
The parser ends.

Every source text is a program or has a fault.  Rules that nest go on only as long as the
counter allows, and each of them reads a token; repetitions end with the tokens.  So nothing
goes on forever, not even in templates within templates.

* `Rules.rule_counted`, `Grammar.chunkExpr_counted`, `Grammar.program_counted` : the runs of
  the rules that nest, of embedded sources and of programs with a counter;
* `Grammar.programItems_end` : a program is read up to the end mark;
* `Ending` : how the parser can end on a source;
* `parser_ends` : the parser makes progress, leaves its counter as it found it and ends.
-/
import ScriptReplay.Proofs.Source.Counting.Grammar
import ScriptReplay.Proofs.Source.Progress

namespace ScriptReplay

/-! ### The counter -/

theorem Rules.rule_counted (k : Rule) (s : Stream) (d d' : Nat)
    (o : Except SyntaxError (k.Tree × Stream)) :
    Counted (fun r => r.rule k s) d o d' ↔
      o = (Rules.atDepth (maxNesting - d)).rule k s ∧ d' = d :=
  (Asks.rule k s).counted_iff d d' o

/-- An embedded source is read with the counter where the template around it is read. -/
theorem Grammar.chunkExpr_counted (chunk : Chunk) (d d' : Nat) (o : Except SyntaxError Expr) :
    Counted (fun r => chunkExpr r chunk) d o d' ↔
      o = chunkExpr (.atDepth (maxNesting - d)) chunk ∧ d' = d :=
  (chunkExpr_asks chunk).counted_iff d d' o

theorem Grammar.program_counted (s : Stream) (d d' : Nat)
    (o : Except SyntaxError (Program × Stream)) :
    Counted (fun r => program r s) d o d' ↔
      o = program (.atDepth (maxNesting - d)) s ∧ d' = d :=
  Asks.counted_iff (program_asking s) d d' o

/-! ### Programs -/

/-- With as many rounds as tokens are left, or more, a program is read up to the end mark. -/
theorem Grammar.programItems_end {r r' : Rules} {shallow : Prop} (hr : r.Reread shallow r')
    {n : Nat} {s s' : Stream} (hs : s.final.kind = .finish) (hn : s.rest.length ≤ n)
    {body : List Stmt} (h : programItems r n s = .ok (body, s')) :
    s'.rest = [] ∧ s'.final = s.final := by
  induction n generalizing s body with
  | zero =>
    cases h
    exact ⟨List.length_eq_zero_iff.1 (Nat.le_zero.1 hn), rfl⟩
  | succ n ih =>
    unfold programItems at h
    rw [Parse.bind_eq (x := Parse.atEnd) (s := s) rfl] at h
    cases hrest : s.rest with
    | nil =>
      rw [hrest] at h
      cases h
      exact ⟨hrest, rfl⟩
    | cons t rest =>
      rw [hrest] at h
      obtain ⟨a, s₁, ha, h⟩ := Parse.bind_eq_ok h
      obtain ⟨as, s₂, has, h⟩ := Parse.bind_eq_ok h
      cases h
      obtain ⟨read, hread, hfinal, hle⟩ := advances_stmt hr s a s₁ hs ha
      have hpos : 1 ≤ read.length := hle
      rw [hread, List.length_append] at hn
      obtain ⟨hend, hfinal'⟩ := ih (hfinal ▸ hs) (by omega) has
      exact ⟨hend, hfinal'.trans hfinal⟩

/-- How the parser ends on a source: at a fault below the level of tokens, at a fault
of the tokens, or with a program that all tokens are read for.  The counter starts and
ends at zero. -/
inductive Ending (source : String) : Prop
  | lexical {e : LexError} (htokens : tokenize source = .error e)
      (hparse : parseProgram source = .error (.ofLex e))
  | fault {ts : Tokens} {e : SyntaxError} (htokens : tokenize source = .ok ts)
    (hrun : Counted (fun r => Grammar.program r (.ofTokens ts)) 0 (.error e) 0)
      (hparse : parseProgram source = .error e)
  | program {ts : Tokens} {p : Program} {s : Stream} (htokens : tokenize source = .ok ts)
    (hrun : Counted (fun r => Grammar.program r (.ofTokens ts)) 0 (.ok (p, s)) 0)
      (hrest : s.rest = []) (hfinal : s.final = ts.final)
      (hparse : parseProgram source = .ok p)

theorem ending (source : String) : Ending source := by
  cases hts : tokenize source with
  | error e => exact .lexical hts (by rw [parseProgram, hts])
  | ok ts =>
    have hparse : parseProgram source =
        (Grammar.program (.atDepth maxNesting) (.ofTokens ts)).map Prod.fst := by
      rw [parseProgram, hts]
      rfl
    have hrun := (Grammar.program_counted (.ofTokens ts) 0 0 _).2 ⟨rfl, rfl⟩
    rw [Nat.sub_zero] at hrun
    cases ho : Grammar.program (.atDepth maxNesting) (.ofTokens ts) with
    | error e =>
      rw [ho] at hrun hparse
      exact .fault hts hrun hparse
    | ok a =>
      obtain ⟨p, s⟩ := a
      rw [ho] at hrun hparse
      unfold Grammar.program at ho
      rw [Parse.bind_eq (x := Parse.here) rfl, Parse.bind_eq (x := Parse.remaining) rfl] at ho
      obtain ⟨body, s₁, hitems, ho⟩ := Parse.bind_eq_ok ho
      cases ho
      have hsize := (Stream.ofTokens ts).size_eq
      obtain ⟨hrest, hfinal⟩ :=
        Grammar.programItems_end (Rules.atDepth_reread maxNesting maxNesting)
        (s := .ofTokens ts) (Grammar.tokensFrom_final hts) (Nat.le_of_eq hsize.symm) hitems
      exact .program hts hrun hrest hfinal hparse

/-- The parser makes progress and ends.  A rule that nests reads at least one token and never
the end mark.  A counter of the nesting ends where it began, whether a rule gives a tree or
finds a fault, and so it does for an embedded source.  No repetition is ended by its count of
rounds.  So every source ends with a program or a fault. -/
theorem parser_ends :
    (∀ levels k, Parse.Advances (fun _ => 1) ((Rules.atDepth levels).rule k)) ∧
    (∀ k s d d' o, Counted (fun r => r.rule k s) d o d' ↔
      o = (Rules.atDepth (maxNesting - d)).rule k s ∧ d' = d) ∧
    (∀ chunk d d' o, Counted (fun r => Grammar.chunkExpr r chunk) d o d' ↔
      o = Grammar.chunkExpr (.atDepth (maxNesting - d)) chunk ∧ d' = d) ∧
    (∀ levels, (Rules.atDepth levels).Settled) ∧
    ∀ source, Ending source := by
  refine ⟨Rules.atDepth_advances, Rules.rule_counted,
    Grammar.chunkExpr_counted, fun levels => ?_, ending⟩
  exact (Rules.atDepth_reread levels levels).settled

/-- A template in a template in a template. -/
def templateTower : String := "`a$\x7b`b$\x7b`c$\x7bd\x7d`\x7d`\x7d`"

/-- The tower is a program, and the counter is back at zero behind it. -/
theorem templateTower_ends : ∃ ts p s, tokenize templateTower = .ok ts ∧
    Counted (fun r => Grammar.program r (.ofTokens ts)) 0 (.ok (p, s)) 0 ∧ s.rest = [] ∧
    parseProgram templateTower = .ok p := by
  have hparsed : (parseProgram templateTower).toOption.isSome = true := by decide +kernel
  cases parser_ends.2.2.2.2 templateTower with
  | lexical _ hparse | fault _ _ hparse =>
    rw [hparse] at hparsed
    cases hparsed
  | program htokens hrun hrest _ hparse => exact ⟨_, _, _, htokens, hrun, hrest, hparse⟩

end ScriptReplay
