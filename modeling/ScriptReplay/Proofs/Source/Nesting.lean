/-
What the nesting ceiling bounds.

The ceiling bounds the levels of every program that is parsed.  It does not bound the height,
for what is read on one level can be as long as the text: the operands of an operator, the
accesses and calls behind an expression, the words before the callee of a construction.

* `parseProgram_levels` : the levels of a program are bounded, and its height is by the steps
  along a level;
* `tower` : powers of powers, which are read on one level;
* `parseProgram_height_unbounded` : there is no bound on the height alone.
-/
import ScriptReplay.Proofs.Source.Levels.Stmts
import ScriptReplay.Proofs.Source.Roundtrip

namespace ScriptReplay

/-! ### Towers of powers -/

/-- A number of power operators, each with `null` before it. -/
def tower : Nat → Expr
  | 0 => .null default
  | n + 1 => .binary .pow (.null default) (tower n) default

/-- The tokens of a tower. -/
def towerKinds : Nat → List TokenKind
  | 0 => [.keyword .nullKw]
  | n + 1 => .keyword .nullKw :: .symbol .starStar :: towerKinds n

/-- The text of a tower, as a statement. -/
def towerText (n : Nat) : String :=
  String.ofList (spelled (towerKinds n ++ [.symbol .semicolon]))

theorem le_length_towerKinds (n : Nat) : n ≤ (towerKinds n).length := by
  induction n with
  | zero => exact Nat.zero_le _
  | succ n ih =>
    rw [towerKinds, List.length_cons, List.length_cons]
    omega

theorem exists_spelled_towerKinds (n : Nat) (ks : List TokenKind) :
    ∃ cs, spelled (towerKinds n ++ ks) = 'n' :: cs := by
  cases n with
  | zero => exact ⟨_, rfl⟩
  | succ n => exact ⟨_, rfl⟩

theorem legible_towerKinds (n : Nat) : Legible (towerKinds n ++ [.symbol .semicolon]) := by
  have hnull : ∀ (c : Char) (cs : List Char), isNamePart c = false →
      (TokenKind.keyword .nullKw).EndsBefore (c :: cs) := by
    rintro c cs hc _ ⟨⟩
    exact hc
  induction n with
  | zero => exact ⟨hnull ';' _ (by decide +kernel), legible_separator rfl trivial⟩
  | succ n ih =>
    refine ⟨hnull '*' _ (by decide +kernel), ?_, ih⟩
    obtain ⟨cs, hcs⟩ := exists_spelled_towerKinds n [.symbol .semicolon]
    show (TokenKind.symbol .starStar).EndsBefore
      (spelled (towerKinds n ++ [.symbol .semicolon]))
    rw [hcs]
    exact ⟨rfl, nofun, nofun⟩

theorem arrowless_towerKinds (n : Nat) :
    Arrowless (towerKinds n ++ [.symbol .semicolon]) := by
  induction n with
  | zero => exact arrowless_cons.2 ⟨rfl, arrowless_cons.2 ⟨rfl, arrowless_nil⟩⟩
  | succ n ih => exact arrowless_cons.2 ⟨rfl, arrowless_cons.2 ⟨rfl, ih⟩⟩

theorem opens_towerKinds (n : Nat) : Opens (towerKinds n) := by
  cases n with
  | zero => exact ⟨_, _, rfl, rfl, nofun⟩
  | succ n => exact ⟨_, _, rfl, rfl, nofun⟩

namespace Grammar

variable {r : Rules} {s : Stream} {k : TokenKind} {ks : List TokenKind}

theorem unary_null (hs : s.Offers (.keyword .nullKw :: k :: ks)) (hchain : k.endsChain = true)
    (hup : updateOp? k = none) :
    ParsesIf True s (Gives (.null default) (k :: ks)) (unary r) := by
  have hkind := hs.head_kind
  have hprimary : primary r s = single (.null s.head.loc) s :=
    primary_of_literal (by rw [hkind]; rfl)
  have hx : ParsesIf True s (Gives (.null default) (k :: ks)) (primary r) :=
    .of_eq hprimary ⟨rfl, hs.tail⟩
  have hchained := callChain_of_primary hx (by rw [hkind]; rfl) hchain
  exact unary_of_counted (counted_of_callChain hchained hup) (by rw [hkind]; rfl)
    (by rw [hkind]; rfl) (by rw [hkind]; rfl)

/-- A tower is read without going down, however high it is. -/
theorem powers_tower (hk : k.isClosing = true) {n m : Nat} (hm : n ≤ m)
    (hs : s.Offers (towerKinds n ++ k :: ks)) :
    ParsesIf True s (Gives (tower n) (k :: ks)) (powers r m) := by
  induction n generalizing m s with
  | zero =>
    obtain ⟨hchain, hup⟩ := TokenKind.ends_of_isClosing hk
    exact powers_of_unary (unary_null hs hchain hup) (starStar_of_isClosing hk) m
  | succ n ih =>
    obtain ⟨m, rfl⟩ : ∃ m', m = m' + 1 := ⟨m - 1, by omega⟩
    refine (unary_null hs rfl rfl).andThen fun base s₁ h₁ => ?_
    refine .step (eatSymbol_of h₁.2.head_kind rfl) ?_
    rw [if_pos rfl]
    refine (ih (Nat.le_of_succ_le_succ hm) h₁.2.tail).andThen fun exponent s₂ h₂ =>
      .pure ⟨?_, h₂.2⟩
    simp only [tower, Expr.bare, h₁.1, h₂.1]

theorem reads_tower (n : Nat) : Reads True (tower n) (towerKinds n) (assignment r) := by
  intro k ks s hk hs
  have hle : n ≤ s.size := by
    rw [hs.size_eq, List.length_append]
    exact Nat.le_trans (le_length_towerKinds n) (Nat.le_add_right _ _)
  refine assignment_of_joined hs (.step (x := Parse.remaining) rfl ?_) hk
  exact layered_of_operand (powers_tower hk hle hs) (joint?_of_isClosing hk)

end Grammar

/-- Every tower is a program. -/
theorem parseProgram_tower (n : Nat) :
    ∃ p e l, parseProgram (towerText n) = .ok p ∧ p.body = [.expr e l] ∧
      e.bare = (tower n).bare := by
  have hlegible := legible_towerKinds n
  obtain ⟨ts, hts, hs⟩ :=
    tokenize_spelled hlegible (arrowless_towerKinds n) (String.toList_ofList (l := spelled _))
  have hreads : Grammar.Reads True (tower n) (towerKinds n) (Rules.atDepth 39).expr :=
    Grammar.reads_tower n
  have hprogram : ParsesIf True _ _ (Grammar.program (.atDepth maxNesting)) :=
    program_reads (opens_towerKinds n) hreads hs
  have hparse : parseProgram (towerText n) =
      (Grammar.program (.atDepth maxNesting) (Stream.ofTokens ts)).map Prod.fst := by
    rw [parseProgram, towerText, hts]
    rfl
  unfold ParsesIf at hprogram
  split at hprogram
  · next p s' hp =>
    obtain ⟨-, st, hbody, e, l, rfl, hbare⟩ := hprogram
    refine ⟨p, e, l, ?_, hbody, hbare⟩
    rw [hparse, hp]
    rfl
  · exact absurd trivial hprogram.1

/-- An expression that is a tower, wherever it stands. -/
inductive Expr.IsTower : Nat → Expr → Prop
  | base {l : Location} : IsTower 0 (.null l)
  | power {n : Nat} {e : Expr} {l l' : Location} (h : IsTower n e) :
      IsTower (n + 1) (.binary .pow (.null l) e l')

theorem Expr.isTower_of_bare {n : Nat} {e : Expr} (h : e.bare = (tower n).bare) :
    e.IsTower n := by
  induction n generalizing e with
  | zero =>
    cases e with
    | null l => exact .base
    | _ => simp [tower, Expr.bare] at h
  | succ n ih =>
    cases e with
    | binary op left right l =>
      simp only [tower, Expr.bare, Expr.binary.injEq, and_true] at h
      obtain ⟨rfl, hleft, hright⟩ := h
      cases left with
      | null l' => exact .power (ih hright)
      | _ => simp [Expr.bare] at hleft
    | _ => simp [tower, Expr.bare] at h

theorem Expr.IsTower.height_eq {n : Nat} {e : Expr} (h : e.IsTower n) : e.height = n + 1 := by
  induction h with
  | base => rfl
  | power _ ih =>
    rw [Expr.height, ih, Expr.height]
    omega

theorem Fragment.Along.eq_zero {n n' : Fragment} {i : Nat} (h : n.Along i n')
    (hbeside : n.beside = []) : i = 0 := by
  cases h with
  | refl => rfl
  | step hm _ =>
    rw [hbeside] at hm
    cases hm

/-- No way along a level of a tower is longer than the tower is high. -/
theorem Expr.IsTower.along_le {n i : Nat} {e : Expr} {m m' : Fragment} (h : e.IsTower n)
    (henc : (Fragment.expr e).Encloses m) (ha : m.Along i m') : i ≤ n := by
  -- The way can begin at the first `null`, which has nothing beside it.
  have hnull : ∀ {l : Location} {m : Fragment},
      (Fragment.expr (.null l)).Encloses m → m.beside = [] := by
    intro l m henc
    rcases henc.cases_head with rfl | ⟨_, hm, -⟩
    · rfl
    · cases hm
  induction h generalizing i m with
  | base => exact Nat.le_of_eq (ha.eq_zero (hnull henc))
  | @power n e l l' _ ih =>
    have hparts : ∀ x ∈ (Expr.binary .pow (.null l) e l').inner,
        x = .expr (.null l) ∨ x = .expr e :=
      fun x hx => by
      simpa [Expr.inner, fragments] using hx
    rcases henc.cases_head with rfl | ⟨x, hx, henc⟩
    · cases ha with
      | refl => exact Nat.zero_le _
      | step hm ha =>
        rcases hparts _ hm with rfl | rfl
        · have := ha.eq_zero rfl
          omega
        · exact Nat.succ_le_succ (ih .refl ha)
    · rcases hparts x hx with rfl | rfl
      · have := ha.eq_zero (hnull henc)
        omega
      · exact Nat.le_succ_of_le (ih henc ha)

/-! ### The ceiling -/

/-- Nothing in a program that was parsed is more levels down than the ceiling allows.  So the
program is no higher than the ceiling times the number of fragments that follow each other
along a level. -/
theorem parseProgram_levels {source : String} {p : Program}
    (h : parseProgram source = .ok p) :
    (∀ k n, (Fragment.program p).Down k n → k ≤ maxNesting) ∧
    ∀ c, (∀ n, (Fragment.program p).Encloses n → ∀ k n', n.Along k n' → k ≤ c) →
      p.height ≤ maxNesting * (c + 1) := by
  have hspares := parseProgram_spares h
  refine ⟨Fragment.within_of (List.forall_mem_nil _) hspares, fun c hc => ?_⟩
  have hlow : Low (maxNesting * (c + 1)) p.body := by
    intro n hn
    obtain ⟨k, hk, hwithin⟩ := hspares n hn
    have hinner : ∀ m, n.Encloses m → ∀ i m', m.Along i m' → i ≤ c :=
      fun m henc => hc m (.head hn henc)
    have hheight := Fragment.height_le_of_within hwithin hinner (hinner n .refl)
    have hlevel : (k + 1) * (c + 1) ≤ maxNesting * (c + 1) := Nat.mul_le_mul_right _ hk
    rw [Nat.succ_mul] at hlevel
    omega
  exact hlow.stmts_le

/-- A tower on one level is higher than the ceiling, and as high as the bound by its steps
allows for one level. -/
theorem parseProgram_levels_tower : ∃ p, parseProgram (towerText 50) = .ok p ∧
    (∀ k n, (Fragment.program p).Down k n → k ≤ maxNesting) ∧ maxNesting < p.height ∧
      p.height ≤ maxNesting * 51 := by
  obtain ⟨p, e, l, hp, hbody, hbare⟩ := parseProgram_tower 50
  have htower := Expr.isTower_of_bare hbare
  have hlevels := parseProgram_levels hp
  refine ⟨p, hp, hlevels.1, ?_, hlevels.2 50 fun n henc k n' ha => ?_⟩
  · rw [Program.height, hbody]
    simp only [Stmt.listHeight, Stmt.height, htower.height_eq]
    decide
  · rcases henc.cases_head with rfl | ⟨x, hx, henc⟩
    · have := ha.eq_zero rfl
      omega
    · obtain rfl : x = .stmt (.expr e l) := by
        simpa [Fragment.inner, hbody, fragments] using hx
      rcases henc.cases_head with rfl | ⟨y, hy, henc⟩
      · have := ha.eq_zero rfl
        omega
      · obtain rfl : y = .expr e := by
          simpa [Fragment.inner, Stmt.inner, fragments] using hy
        exact htower.along_le henc ha

/-- No bound holds for the height of all programs that are parsed. -/
theorem parseProgram_height_unbounded :
    ¬ ∃ bound, ∀ source p, parseProgram source = .ok p → p.height ≤ bound := by
  rintro ⟨bound, h⟩
  obtain ⟨p, e, l, hp, hbody, hbare⟩ := parseProgram_tower bound
  have hle := h _ p hp
  rw [Program.height, hbody] at hle
  simp only [Stmt.listHeight, Stmt.height, (Expr.isTower_of_bare hbare).height_eq] at hle
  omega

end ScriptReplay
