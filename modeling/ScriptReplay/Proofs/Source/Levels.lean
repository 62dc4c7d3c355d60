/-
The levels of a program.

Most parts of a fragment are read by a rule of the grammar that goes one level down.  The
others are read on the level of the fragment: its first operand, and what has no text of its
own besides it.

* `Fragment.beside`, `Fragment.under` : what is directly inside a fragment, on its level and
  one level down;
* `Fragment.Down` : a fragment inside another one, a number of levels down;
* `Fragment.Along` : a fragment inside another one on its level, a number of steps away;
* `Fragment.Within` : a fragment that goes a number of levels down at most;
* `Fragment.height_le_of_within` : the height of a fragment is bounded by its levels and by
  the steps on each of them.

Design notes: parentheses leave no trace in a tree, so the levels of a tree are those that its
text needs at least.
-/
import ScriptReplay.Program.Height
import ScriptReplay.Proofs.Source.Fragments

namespace ScriptReplay

/-! ### Levels -/

/-- Whether an expression can be the value of a property without a colon: a method, or a
name for both. -/
def Expr.isOwnValue : Expr → Bool
  | .function _ _ | .ident _ _ => true
  | _ => false

/-- The fragments directly inside an expression that are read on its level.  Operators with
two operands, calls and property accesses go on from what is read already. -/
def Expr.beside : Expr → List Fragment
  | .object properties _ => fragments properties
  | .function r _ => fragments r
  | .update _ before target _ => if before then [] else fragments target
  | .binary _ left right _ | .logical _ left right _ => fragments left ++ fragments right
  | .assign _ target _ _ => fragments target
  | .conditional test _ _ _ => fragments test
  | .call callee _ _ | .new callee _ _ => fragments callee
  | .member base _ _ => fragments base
  | _ => []

/-- The fragments directly inside an expression that are read one level down. -/
def Expr.under : Expr → List Fragment
  | .template _ parts _ => fragments parts
  | .array items _ => fragments items
  | .unary _ e _ | .await e _ => fragments e
  | .update _ before target _ => if before then fragments target else []
  | .assign _ _ value _ => fragments value
  | .conditional _ yes no _ => fragments yes ++ fragments no
  | .call _ arguments _ | .new _ arguments _ => fragments arguments
  | .member _ key _ => fragments key
  | _ => []

/-- The fragments directly inside a statement that are read on its level. -/
def Stmt.beside : Stmt → List Fragment
  | .declare _ declarators _ => fragments declarators
  | .function r _ => fragments r
  | .forLoop init _ _ _ _ => fragments init
  | .tryBlock _ handler _ _ => fragments handler
  | _ => []

/-- The fragments directly inside a statement that are read one level down. -/
def Stmt.under : Stmt → List Fragment
  | .expr e _ | .raise e _ => fragments e
  | .ret value _ => fragments value
  | .ifElse test yes no _ => fragments test ++ (fragments yes ++ fragments no)
  | .forLoop _ test update body _ => fragments test ++ (fragments update ++ fragments body)
  | .forOf _ _ iterable body _ => fragments iterable ++ fragments body
  | .whileLoop test body _ => fragments test ++ fragments body
  | .doWhile body test _ => fragments body ++ fragments test
  | .block body _ => fragments body
  | .tryBlock body _ finalizer _ => fragments body ++ fragments finalizer
  | _ => []

/-- The fragments directly inside a fragment that are read on its level. -/
def Fragment.beside : Fragment → List Fragment
  | expr e => e.beside
  | stmt s => s.beside
  | routine r => [.body r.body r.bodyLoc]
  | property p => if p.value.isOwnValue then fragments p.value else []
  | _ => []

/-- The fragments directly inside a fragment that are read one level down. -/
def Fragment.under : Fragment → List Fragment
  | program p => fragments p.body
  | expr e => e.under
  | stmt s => s.under
  | routine r => fragments r.params
  | body b _ => fragments b
  | declarator d => fragments d.init
  | property p => if p.value.isOwnValue then [] else fragments p.value
  | handler h => fragments h.body

/-- What is directly inside a fragment is on its level or one level down. -/
theorem Fragment.mem_inner {n n' : Fragment} :
    n' ∈ n.inner ↔ n' ∈ n.beside ∨ n' ∈ n.under := by
  cases n with
  | expr e =>
    cases e with
    | update op before target l =>
      cases before <;> simp [inner, beside, under, Expr.inner, Expr.beside, Expr.under]
    | _ => simp [inner, beside, under, Expr.inner, Expr.beside, Expr.under]
  | stmt s =>
    cases s with
    | tryBlock =>
      simp only [inner, beside, under, Stmt.inner, Stmt.beside, Stmt.under, List.mem_append]
      exact or_left_comm
    | _ => simp [inner, beside, under, Stmt.inner, Stmt.beside, Stmt.under]
  | routine r =>
    simp only [inner, beside, under, List.mem_append]
    exact or_comm
  | property p =>
    simp only [inner, beside, under]
    split <;> simp
  | program | body | declarator | handler => simp [inner, beside, under]

/-- The second fragment is inside the first one, a number of levels down. -/
inductive Fragment.Down : Nat → Fragment → Fragment → Prop
  | refl {n : Fragment} : Down 0 n n
  | beside {k : Nat} {n m n' : Fragment} (hm : m ∈ n.beside) (h : Down k m n') : Down k n n'
  | under {k : Nat} {n m n' : Fragment} (hm : m ∈ n.under) (h : Down k m n') :
      Down (k + 1) n n'

/-- The second fragment is inside the first one on its level, a number of steps away. -/
inductive Fragment.Along : Nat → Fragment → Fragment → Prop
  | refl {n : Fragment} : Along 0 n n
  | step {k : Nat} {n m n' : Fragment} (hm : m ∈ n.beside) (h : Along k m n') :
      Along (k + 1) n n'

/-- Nothing in the fragment is more than a number of levels down. -/
def Fragment.Within (k : Nat) (n : Fragment) : Prop :=
  ∀ j n', n.Down j n' → j ≤ k

/-- The fragment leaves at least one of a number of levels. -/
def Fragment.Spares (k : Nat) (n : Fragment) : Prop :=
  ∃ j, j < k ∧ n.Within j

namespace Fragment

variable {k k' : Nat} {n m : Fragment}

theorem Within.mono (h : n.Within k) (hk : k ≤ k') : n.Within k' :=
  fun j n' hd => Nat.le_trans (h j n' hd) hk

theorem Within.of_beside (h : n.Within k) (hm : m ∈ n.beside) : m.Within k :=
  fun j n' hd => h j n' (.beside hm hd)

theorem Within.of_under (h : n.Within k) (hm : m ∈ n.under) : m.Spares k := by
  have hk : 1 ≤ k := h 1 m (.under hm .refl)
  refine ⟨k - 1, by omega, fun j n' hd => ?_⟩
  have := h (j + 1) n' (.under hm hd)
  omega

/-- A fragment needs the levels of what is on its level, and one more than what is a
level down. -/
theorem within_of (hbeside : ∀ m ∈ n.beside, m.Within k)
    (hunder : ∀ m ∈ n.under, m.Spares k) : n.Within k := by
  intro j n' hd
  cases hd with
  | refl => exact Nat.zero_le k
  | beside hm h => exact hbeside _ hm j n' h
  | under hm h =>
    obtain ⟨i, hi, hwithin⟩ := hunder _ hm
    have := hwithin _ n' h
    omega

theorem Spares.within (h : n.Spares k) : n.Within k := by
  obtain ⟨j, hj, hwithin⟩ := h
  exact hwithin.mono (Nat.le_of_lt hj)

end Fragment

/-- The outermost fragments of a tree are all like this. -/
def Each {α : Type} [Fragments α] (P : Fragment → Prop) (a : α) : Prop :=
  ∀ n ∈ fragments a, P n

theorem each_nil {α : Type} [Fragments α] {P : Fragment → Prop} : Each P ([] : List α) :=
  List.forall_mem_nil _

theorem each_cons {α : Type} [Fragments α] {P : Fragment → Prop} {a : α} {as : List α} :
    Each P (a :: as) ↔ Each P a ∧ Each P as := by
  unfold Each
  rw [show fragments (a :: as) = fragments a ++ fragments as from rfl]
  exact List.forall_mem_append

/-! ### Heights -/

/-- The height of a fragment.  What only holds its parts together does not count. -/
def Fragment.height : Fragment → Nat
  | program p => p.height
  | expr e => e.height
  | stmt s => s.height
  | routine r => r.height
  | body b _ => b.height
  | declarator d => d.height
  | property p => p.height
  | handler h => h.height

section
variable {α : Type} [Fragments α] {b : Nat}

/-- The outermost fragments of a tree are no higher than this. -/
abbrev Low (b : Nat) (a : α) : Prop :=
  Each (fun n => n.height ≤ b) a

/-- The greatest of some heights is bounded if each of them is. -/
theorem Low.greatest_le {height : α → Nat} {greatest : List α → Nat} (hnil : greatest [] = 0)
    (hcons : ∀ a rest, greatest (a :: rest) = max (height a) (greatest rest))
    (hone : ∀ a, Low b a → height a ≤ b) {as : List α} (h : Low b as) : greatest as ≤ b := by
  induction as with
  | nil => rw [hnil]; exact Nat.zero_le b
  | cons a rest ih =>
    obtain ⟨ha, hrest⟩ := each_cons.1 h
    rw [hcons]
    exact Nat.max_le.2 ⟨hone a ha, ih hrest⟩

theorem Low.expr_le {e : Expr} (h : Low b e) : e.height ≤ b :=
  h _ List.mem_cons_self

theorem Low.stmt_le {s : Stmt} (h : Low b s) : s.height ≤ b :=
  h _ List.mem_cons_self

theorem Low.option_le {o : Option Expr} (h : Low b o) : Expr.optionHeight o ≤ b := by
  cases o with
  | none => exact Nat.zero_le b
  | some e => exact Low.expr_le h

theorem Low.exprs_le {es : List Expr} (h : Low b es) : Expr.listHeight es ≤ b :=
  h.greatest_le rfl (fun _ _ => rfl) fun _ => Low.expr_le

theorem Low.stmts_le {ss : List Stmt} (h : Low b ss) : Stmt.listHeight ss ≤ b :=
  h.greatest_le rfl (fun _ _ => rfl) fun _ => Low.stmt_le

theorem Low.target_le {t : Target} (h : Low b t) : t.height ≤ b := by
  have heq : t.toExpr.height = t.height := by
    cases t <;> simp only [Target.toExpr, Expr.height, Target.height]
  rw [← heq]
  exact h _ List.mem_cons_self

theorem Low.key_le {key : Key} (h : Low b key) : key.height ≤ b := by
  cases key with
  | named => exact Nat.zero_le b
  | computed e => exact Low.expr_le h

theorem Low.body_le {body : Body} (h : Low b body) : body.height ≤ b := by
  cases body with
  | block => exact Low.stmts_le h
  | value => exact Low.expr_le h

end

/-- An expression is at most one higher than what is directly inside it. -/
theorem Expr.height_le {e : Expr} {b : Nat} (h : ∀ n ∈ e.inner, n.height ≤ b) :
    e.height ≤ b + 1 := by
  cases e with
  | number | string | bool | null | ident | this => simp [Expr.height]
  | template _ parts => exact Nat.succ_le_succ (Low.exprs_le h)
  | array items =>
    exact Nat.succ_le_succ (Low.greatest_le rfl (fun _ _ => rfl) (fun _ => Low.option_le) h)
  | object properties =>
    refine Nat.succ_le_succ (Low.greatest_le rfl (fun _ _ => rfl) (fun p hp => ?_) h)
    exact hp _ List.mem_cons_self
  | function r => exact Nat.succ_le_succ (h _ List.mem_cons_self)
  | unary _ e | await e => exact Nat.succ_le_succ (Low.expr_le h)
  | update _ _ target => exact Nat.succ_le_succ (Low.target_le h)
  | binary _ left right | logical _ left right =>
    obtain ⟨hl, hr⟩ := List.forall_mem_append.1 h
    exact Nat.succ_le_succ (Nat.max_le.2 ⟨Low.expr_le hl, Low.expr_le hr⟩)
  | assign _ target value =>
    obtain ⟨ht, hv⟩ := List.forall_mem_append.1 h
    exact Nat.succ_le_succ (Nat.max_le.2 ⟨Low.target_le ht, Low.expr_le hv⟩)
  | conditional test yes no =>
    obtain ⟨ht, h⟩ := List.forall_mem_append.1 h
    obtain ⟨hy, hn⟩ := List.forall_mem_append.1 h
    exact Nat.succ_le_succ
      (Nat.max_le.2 ⟨Low.expr_le ht, Nat.max_le.2 ⟨Low.expr_le hy, Low.expr_le hn⟩⟩)
  | call callee arguments | new callee arguments =>
    obtain ⟨hc, ha⟩ := List.forall_mem_append.1 h
    exact Nat.succ_le_succ (Nat.max_le.2 ⟨Low.expr_le hc, Low.exprs_le ha⟩)
  | member base key =>
    obtain ⟨hb, hk⟩ := List.forall_mem_append.1 h
    exact Nat.succ_le_succ (Nat.max_le.2 ⟨Low.expr_le hb, Low.key_le hk⟩)

/-- A statement is at most one higher than what is directly inside it. -/
theorem Stmt.height_le {s : Stmt} {b : Nat} (h : ∀ n ∈ s.inner, n.height ≤ b) :
    s.height ≤ b + 1 := by
  cases s with
  | breakOut | nextRound | empty => simp [Stmt.height]
  | declare _ declarators =>
    refine Nat.succ_le_succ (Low.greatest_le rfl (fun _ _ => rfl) (fun d hd => ?_) h)
    exact hd _ List.mem_cons_self
  | function r => exact Nat.succ_le_succ (h _ List.mem_cons_self)
  | expr e | raise e => exact Nat.succ_le_succ (Low.expr_le h)
  | ret value => exact Nat.succ_le_succ (Low.option_le h)
  | block body => exact Nat.succ_le_succ (Low.stmts_le h)
  | ifElse test yes no =>
    obtain ⟨ht, h⟩ := List.forall_mem_append.1 h
    obtain ⟨hy, hn⟩ := List.forall_mem_append.1 h
    have hno : Stmt.optionHeight no ≤ b := by
      cases no with
      | none => exact Nat.zero_le b
      | some no => exact Low.stmt_le hn
    exact Nat.succ_le_succ (Nat.max_le.2 ⟨Low.expr_le ht, Nat.max_le.2 ⟨Low.stmt_le hy, hno⟩⟩)
  | forLoop init test update body =>
    obtain ⟨hi, h⟩ := List.forall_mem_append.1 h
    obtain ⟨ht, h⟩ := List.forall_mem_append.1 h
    obtain ⟨hu, hb⟩ := List.forall_mem_append.1 h
    have hinit : Stmt.optionHeight init ≤ b := by
      cases init with
      | none => exact Nat.zero_le b
      | some init => exact Low.stmt_le hi
    refine Nat.succ_le_succ (Nat.max_le.2 ⟨Nat.max_le.2 ⟨hinit, Low.option_le ht⟩, ?_⟩)
    exact Nat.max_le.2 ⟨Low.option_le hu, Low.stmt_le hb⟩
  | forOf _ _ iterable body =>
    obtain ⟨hi, hb⟩ := List.forall_mem_append.1 h
    exact Nat.succ_le_succ (Nat.max_le.2 ⟨Low.expr_le hi, Low.stmt_le hb⟩)
  | whileLoop test body =>
    obtain ⟨ht, hb⟩ := List.forall_mem_append.1 h
    exact Nat.succ_le_succ (Nat.max_le.2 ⟨Low.expr_le ht, Low.stmt_le hb⟩)
  | doWhile body test =>
    obtain ⟨hb, ht⟩ := List.forall_mem_append.1 h
    exact Nat.succ_le_succ (Nat.max_le.2 ⟨Low.stmt_le hb, Low.expr_le ht⟩)
  | tryBlock body handler finalizer =>
    obtain ⟨hb, h⟩ := List.forall_mem_append.1 h
    obtain ⟨hh, hf⟩ := List.forall_mem_append.1 h
    have hhandler : Handler.optionHeight handler ≤ b := by
      cases handler with
      | none => exact Nat.zero_le b
      | some handler => exact hh _ List.mem_cons_self
    have hfinalizer : Stmt.optionListHeight finalizer ≤ b := by
      cases finalizer with
      | none => exact Nat.zero_le b
      | some finalizer => exact Low.stmts_le hf
    exact Nat.succ_le_succ
      (Nat.max_le.2 ⟨Low.stmts_le hb, Nat.max_le.2 ⟨hhandler, hfinalizer⟩⟩)

/-- A fragment is at most one higher than what is directly inside it. -/
theorem Fragment.height_le {n : Fragment} {b : Nat} (h : ∀ n' ∈ n.inner, n'.height ≤ b) :
    n.height ≤ b + 1 := by
  cases n with
  | expr e => exact Expr.height_le h
  | stmt s => exact Stmt.height_le h
  | routine r =>
    obtain ⟨hparams, hbody⟩ := List.forall_mem_append.1 h
    rw [Fragment.height, r.height_eq]
    have hone : ∀ p : Param, Low b p → p.height ≤ b :=
      fun p hp => p.height_eq ▸ Low.option_le hp
    refine Nat.succ_le_succ
      (Nat.max_le.2 ⟨Low.greatest_le rfl (fun _ _ => rfl) hone hparams, ?_⟩)
    exact hbody _ List.mem_cons_self
  | program p => exact Nat.le_succ_of_le (Low.stmts_le h)
  | body body l => exact Nat.le_succ_of_le (Low.body_le h)
  | declarator d =>
    exact Nat.le_succ_of_le (Nat.le_trans (Nat.le_of_eq d.height_eq) (Low.option_le h))
  | property p =>
    exact Nat.le_succ_of_le (Nat.le_trans (Nat.le_of_eq p.height_eq) (Low.expr_le h))
  | handler c =>
    exact Nat.le_succ_of_le (Nat.le_trans (Nat.le_of_eq c.height_eq) (Low.stmts_le h))

/-- If no more than `c` steps can be taken on any level, a fragment is no higher than its
levels and the steps on them: `j` on its own level, and as many as there can be on each
one under it. -/
theorem Fragment.height_le_of_within {c k j : Nat} {n : Fragment} (hk : n.Within k)
    (hc : ∀ m, n.Encloses m → ∀ i m', m.Along i m' → i ≤ c)
    (hj : ∀ i m', n.Along i m' → i ≤ j) : n.height ≤ k * (c + 1) + j + 1 := by
  -- Each step on a level takes one from the bound, and so does a step down, which begins with
  -- all of a level.
  induction hb : k * (c + 1) + j using Nat.strongRecOn generalizing n k j with
  | ind b ih =>
    refine height_le fun m hm => ?_
    have hcm : ∀ m', m.Encloses m' → ∀ i n', m'.Along i n' → i ≤ c :=
      fun m' henc => hc m' (.head hm henc)
    rcases mem_inner.1 hm with hm | hm
    · have hpos := hj 1 m (.step hm .refl)
      have hlow : m.height ≤ k * (c + 1) + (j - 1) + 1 := by
        refine ih _ (by omega) (hk.of_beside hm) hcm (fun i m' h => ?_) rfl
        have := hj (i + 1) m' (.step hm h)
        omega
      omega
    · obtain ⟨i, hi, hwithin⟩ := hk.of_under hm
      have hlevel : (i + 1) * (c + 1) ≤ k * (c + 1) := Nat.mul_le_mul_right _ hi
      rw [Nat.succ_mul] at hlevel
      have hlow : m.height ≤ i * (c + 1) + c + 1 :=
        ih _ (by omega) hwithin hcm (hcm m .refl) rfl
      omega

end ScriptReplay
