/-
Enough fuel.

Fuel counts levels of nesting.  Between two calls an evaluation goes down a tree, and the
ceiling on calls bounds how often it can begin at the root of another one.  Only the fallbacks
of parameters are evaluated before their call is counted, so they must not call anything.

* `Node.height` : the height of a node, greater than that of its parts;
* `Node.Calls` : expressions whose evaluation may come to a call;
* `Region.PlainFallbacks` : no fallback comes to a call;
* `lasting_enters`, `lasting_walks_of_enters` : walkers whose fuel lasts for some calls;
* `Discipline.lasts_of_acts` : computations made of actions do not run out of such fuel;
* `Execution.ofProgram?_eq_some` : programs with plain fallbacks always finish.

Design notes: the fuel that is needed for `calls` more calls at a node is its height and the
height of the whole region for each call, with one more for a fallback.  The two walkers have
different fuel, so "does not run out" and "does not change with more fuel" are one statement.
-/
import ScriptReplay.Proofs.Scoping

namespace ScriptReplay

/-! ### Heights of nodes -/

/-- The height of a node. -/
def Node.height : Node → Nat
  | .expr e => e.height
  | .stmt s => s.height
  | .routine r => r.height

/-- The greatest of some heights is no less than each of them. -/
theorem height_le_of_mem {α : Type} {height : α → Nat} {greatest : List α → Nat}
    (hcons : ∀ a rest, greatest (a :: rest) = max (height a) (greatest rest)) {a : α}
    {as : List α} (h : a ∈ as) : height a ≤ greatest as := by
  induction as with
  | nil => cases h
  | cons b rest ih =>
    rw [hcons]
    rcases List.mem_cons.1 h with rfl | h
    · omega
    · have := ih h
      omega

theorem Expr.height_le_list {es : List Expr} {e : Expr} (h : e ∈ es) :
    e.height ≤ Expr.listHeight es :=
  height_le_of_mem (fun _ _ => rfl) h

theorem Stmt.height_le_list {ss : List Stmt} {s : Stmt} (h : s ∈ ss) :
    s.height ≤ Stmt.listHeight ss :=
  height_le_of_mem (fun _ _ => rfl) h

theorem Key.height_le {key : Key} {n : Node} (h : n ∈ key.parts) : n.height ≤ key.height := by
  cases key with
  | named name => cases h
  | computed e =>
    rw [List.mem_singleton.1 h, Key.height]
    rfl

theorem Target.height_lt {target : Target} {n : Node} (h : n ∈ target.parts) :
    n.height < target.height := by
  cases target with
  | name name l => cases h
  | member base key l =>
    rw [Target.height]
    rcases List.mem_cons.1 h with rfl | h
    · rw [Node.height]
      omega
    · have := Key.height_le h
      omega

/-- The parts of an expression are lower than it. -/
theorem Expr.height_lt {e : Expr} {n : Node} (h : n ∈ e.parts) : n.height < e.height := by
  cases e with
  | number | string | bool | null | ident | this => cases h
  | template texts parts l =>
    obtain ⟨e, he, rfl⟩ := List.mem_map.1 h
    have := Expr.height_le_list he
    rw [Expr.height, Node.height]
    omega
  | array items l =>
    obtain ⟨e, he, rfl⟩ := mem_parts_array.1 h
    have : Expr.optionHeight (some e) ≤ Expr.itemsHeight items :=
      height_le_of_mem (fun _ _ => rfl) he
    rw [Expr.optionHeight] at this
    rw [Expr.height, Node.height]
    omega
  | object properties l =>
    obtain ⟨p, hp, rfl⟩ := List.mem_map.1 h
    have : p.height ≤ Property.listHeight properties := height_le_of_mem (fun _ _ => rfl) hp
    rw [p.height_eq] at this
    rw [Expr.height, Node.height]
    omega
  | function r l =>
    rw [List.mem_singleton.1 h, Expr.height, Node.height]
    omega
  | unary op e l | await e l =>
    rw [List.mem_singleton.1 h, Expr.height, Node.height]
    omega
  | update op before target l =>
    have := Target.height_lt h
    rw [Expr.height]
    omega
  | binary op left right l | logical op left right l =>
    rw [Expr.height]
    simp only [Expr.parts, List.mem_cons, List.not_mem_nil, or_false] at h
    rcases h with rfl | rfl <;> rw [Node.height] <;> omega
  | assign op target value l =>
    rw [Expr.height]
    rcases List.mem_cons.1 h with rfl | h
    · rw [Node.height]
      omega
    · have := Target.height_lt h
      omega
  | conditional test yes no l =>
    rw [Expr.height]
    simp only [Expr.parts, List.mem_cons, List.not_mem_nil, or_false] at h
    rcases h with rfl | rfl | rfl <;> rw [Node.height] <;> omega
  | call callee arguments l | new callee arguments l =>
    rw [Expr.height]
    rcases List.mem_cons.1 h with rfl | h
    · rw [Node.height]
      omega
    · obtain ⟨e, he, rfl⟩ := List.mem_map.1 h
      have := Expr.height_le_list he
      rw [Node.height]
      omega
  | member object key l =>
    rw [Expr.height]
    rcases List.mem_cons.1 h with rfl | h
    · rw [Node.height]
      omega
    · have := Key.height_le h
      omega

/-- The parts of a statement are lower than it. -/
theorem Stmt.height_lt {s : Stmt} {n : Node} (h : n ∈ s.parts) : n.height < s.height := by
  cases s with
  | breakOut | nextRound | empty => cases h
  | declare kind ds l =>
    obtain ⟨d, hd, e, hinit, rfl⟩ := mem_parts_declare.1 h
    have : d.height ≤ Declarator.listHeight ds := height_le_of_mem (fun _ _ => rfl) hd
    rw [d.height_eq, hinit, Expr.optionHeight] at this
    rw [Stmt.height, Node.height]
    omega
  | function r l =>
    rw [List.mem_singleton.1 h, Stmt.height, Node.height]
    omega
  | expr e l | raise e l =>
    rw [List.mem_singleton.1 h, Stmt.height, Node.height]
    omega
  | ret value l =>
    obtain ⟨e, he, rfl⟩ := List.mem_map.1 h
    rw [Option.mem_toList.1 he, Stmt.height, Expr.optionHeight, Node.height]
    omega
  | ifElse test yes no l =>
    rw [Stmt.height]
    simp only [Stmt.parts, List.mem_cons, List.mem_map, Option.mem_toList] at h
    rcases h with rfl | rfl | ⟨s, rfl, rfl⟩
    · rw [Node.height]
      omega
    · rw [Node.height]
      omega
    · rw [Node.height, Stmt.optionHeight]
      omega
  | forLoop init test update body l =>
    rw [Stmt.height]
    simp only [Stmt.parts, List.cons_append, List.mem_cons, List.mem_append, List.mem_map,
      Option.mem_toList] at h
    rcases h with rfl | ⟨s, rfl, rfl⟩ | ⟨e, rfl | rfl, rfl⟩
    · rw [Node.height]
      omega
    · rw [Node.height, Stmt.optionHeight]
      omega
    · rw [Node.height, Expr.optionHeight]
      omega
    · rw [Node.height]
      simp only [Expr.optionHeight]
      omega
  | forOf kind name iterable body l =>
    rw [Stmt.height]
    simp only [Stmt.parts, List.mem_cons, List.not_mem_nil, or_false] at h
    rcases h with rfl | rfl <;> rw [Node.height] <;> omega
  | whileLoop test body l | doWhile body test l =>
    rw [Stmt.height]
    simp only [Stmt.parts, List.mem_cons, List.not_mem_nil, or_false] at h
    rcases h with rfl | rfl <;> rw [Node.height] <;> omega
  | block body l =>
    obtain ⟨s, hs, rfl⟩ := List.mem_map.1 h
    have := Stmt.height_le_list hs
    rw [Stmt.height, Node.height]
    omega
  | tryBlock body handler finalizer l =>
    rw [Stmt.height]
    obtain ⟨s, rfl, hs | ⟨c, rfl, hs⟩ | ⟨last, rfl, hs⟩⟩ := mem_parts_tryBlock.1 h
    · have := Stmt.height_le_list hs
      rw [Node.height]
      omega
    · have := Stmt.height_le_list hs
      rw [Node.height, Handler.optionHeight, c.height_eq]
      omega
    · have := Stmt.height_le_list hs
      rw [Node.height, Stmt.optionListHeight]
      omega

/-- The fallbacks and the body of a function are lower than it. -/
theorem Routine.height_lt {r : Routine} {n : Node} (h : n ∈ r.parts) :
    n.height < r.height := by
  rw [r.height_eq]
  rcases mem_parts.1 h with ⟨p, hp, e, hfallback, rfl⟩ | h
  · have : p.height ≤ Param.listHeight r.params := height_le_of_mem (fun _ _ => rfl) hp
    rw [p.height_eq, hfallback, Expr.optionHeight] at this
    rw [Node.height]
    omega
  · cases hbody : r.body with
    | block statements =>
      rw [hbody] at h
      obtain ⟨s, hs, rfl⟩ := List.mem_map.1 h
      have := Stmt.height_le_list hs
      rw [Body.height, Node.height]
      omega
    | value e =>
      rw [hbody] at h
      rw [List.mem_singleton.1 h, Body.height, Node.height]
      omega

theorem Node.height_lt {n n' : Node} (h : n' ∈ n.parts) : n'.height < n.height := by
  cases n with
  | expr e => exact Expr.height_lt h
  | stmt s => exact Stmt.height_lt h
  | routine r => exact Routine.height_lt h

theorem Program.height_le {p : Program} {n : Node} (h : p.region.has n) :
    n.height ≤ p.height := by
  refine Program.region_induction (P := fun n => n.height ≤ p.height) (fun s hs => ?_)
    (fun n n' hn hpart => ?_) h
  · exact Stmt.height_le_list hs
  · have := Node.height_lt hpart
    omega

/-! ### Grounds -/

/-- The nodes of a region up to a height. -/
def Region.upTo (N : Region) (h : Nat) : Ground N where
  has n := N.has n ∧ n.height ≤ h
  region hn := hn.1
  exprPart hn hpart := ⟨N.part hn.1 hpart, (Nat.le_of_lt (Node.height_lt hpart)).trans hn.2⟩
  stmtPart hn hpart := ⟨N.part hn.1 hpart, (Nat.le_of_lt (Node.height_lt hpart)).trans hn.2⟩

/-- Expressions whose evaluation may come to a call: calls and constructions, and what has one
inside.  A function that is made there does not count, for it is not called yet. -/
inductive Node.Calls : Node → Prop
  | call {e : Expr} (h : e.isCall = true) : Node.Calls (.expr e)
  | part {e : Expr} {n : Node} (hpart : n ∈ e.parts) (h : n.Calls) : Node.Calls (.expr e)

/-- No fallback of a parameter comes to a call. -/
def Region.PlainFallbacks (N : Region) : Prop :=
  ∀ r, N.has (.routine r) → ∀ p ∈ r.params, ∀ e, p.fallback = some e → ¬ (Node.expr e).Calls

/-- The expressions of a region up to a height that do not come to a call, and
its functions. -/
def Region.callFree (N : Region) (h : Nat) : Ground N where
  has n := (N.has n ∧ n.height ≤ h) ∧ ¬ n.Calls ∧ ∀ s, n ≠ .stmt s
  region hn := hn.1.1
  exprPart hn hpart := by
    refine ⟨(N.upTo h).exprPart hn.1 hpart, fun hcalls => hn.2.1 (.part hpart hcalls), ?_⟩
    rintro s rfl
    exact Expr.parts_ne_stmt hpart
  stmtPart hn _ := absurd rfl (hn.2.2 _)

/-! ### Walkers with enough fuel -/

variable {N : Region} {G : Gap}

/-- What does not come to a call needs no more fuel than its height. -/
theorem callFree_walks (h : Nat) {fuel fuel' : Nat} (hf : h ≤ fuel) (hf' : h ≤ fuel') :
    Walks G (N.callFree h) (walker fuel) (walker fuel') := by
  induction h generalizing fuel fuel' with
  | zero =>
    refine ⟨fun {e} he _ => ?_, fun hs _ => absurd rfl (hs.2.2 _)⟩
    have hle : e.height ≤ 0 := he.1.2
    have hpos := e.height_pos
    omega
  | succ h ih =>
    obtain ⟨fuel, rfl⟩ := Nat.exists_eq_add_one_of_ne_zero (show fuel ≠ 0 by omega)
    obtain ⟨fuel', rfl⟩ := Nat.exists_eq_add_one_of_ne_zero (show fuel' ≠ 0 by omega)
    refine ⟨fun {e} he K => ?_, fun hs _ => absurd rfl (hs.2.2 _)⟩
    refine evalExpr_acts (ih (by omega) (by omega))
      (fun hcall => absurd (.call hcall) he.2.1) (fun n hn => ?_) he.1.1
    have hpart := (N.callFree (h + 1)).exprPart he hn
    have hlt : n.height < e.height := Expr.height_lt hn
    have hle : e.height ≤ h + 1 := he.1.2
    exact ⟨⟨hpart.1.1, by omega⟩, hpart.2⟩

section
variable {height : Nat}

/-- Walkers that enter functions with their fuel go down a tree with the height of it more. -/
theorem lasting_walks_of_enters {calls need : Nat}
    (henters : ∀ {fuel fuel' : Nat}, fuel ≤ fuel' → need ≤ fuel →
      Enters (.lasting calls) N (walker fuel) (walker fuel'))
    (h : Nat) {fuel fuel' : Nat} (hle : fuel ≤ fuel') (hf : need + h ≤ fuel) :
    Walks (.lasting calls) (N.upTo h) (walker fuel) (walker fuel') := by
  induction h generalizing fuel fuel' with
  | zero =>
    refine ⟨fun {e} he _ => ?_, fun {s} hs _ => ?_⟩
    · have hle : e.height ≤ 0 := he.2
      have hpos := e.height_pos
      omega
    · have hle : s.height ≤ 0 := hs.2
      have hpos := s.height_pos
      omega
  | succ h ih =>
    obtain ⟨fuel, rfl⟩ := Nat.exists_eq_add_one_of_ne_zero (show fuel ≠ 0 by omega)
    obtain ⟨fuel', rfl⟩ := Nat.exists_eq_add_one_of_ne_zero (show fuel' ≠ 0 by omega)
    have hparts : ∀ n, (N.upTo (h + 1)).has n → ∀ n' ∈ n.parts, (N.upTo h).has n' := by
      intro n hn n' hn'
      have hlt := Node.height_lt hn'
      have hle : n.height ≤ h + 1 := hn.2
      exact ⟨N.part hn.1 hn', by omega⟩
    have hw : Walks (.lasting calls) (N.upTo h) (walker fuel) (walker fuel') :=
      ih (by omega) (by omega)
    have hw' : Walks (.lasting calls) (N.upTo h) (walker fuel') (walker fuel') :=
      ih (Nat.le_refl _) (by omega)
    refine ⟨fun he K => ?_, fun hs K => ?_⟩
    · exact evalExpr_acts hw (fun _ => henters (by omega) (by omega)) (hparts _ he) he.1
    · exact execStmt_acts (by simp) hw' hw (hparts _ hs) hs.1

/-- Walkers with the height of the region for each call, and once more for a fallback, enter
its functions. -/
theorem lasting_enters (hplain : N.PlainFallbacks)
    (hheight : ∀ n, N.has n → n.height ≤ height) (calls : Nat) {fuel fuel' : Nat}
    (hle : fuel ≤ fuel') (hf : (calls + 1) * height ≤ fuel) :
    Enters (.lasting calls) N (walker fuel) (walker fuel') := by
  induction calls generalizing fuel fuel' with
  | zero =>
    refine ⟨fun hr p hp e he K => ?_, fun hr K => ?_, nofun⟩
    · have hN := N.part hr (Routine.mem_parts_of_fallback hp he)
      refine (callFree_walks height (by omega) (by omega)).eval
        ⟨⟨hN, hheight _ hN⟩, hplain _ hr p hp e he, ?_⟩ K
      simp
    · -- No call is left, so the body is not reached and its fuel does not matter.
      have hw : Walks .none N.ground (walker fuel) (walker fuel') :=
        walker_acts (G := .none) trivial hle
      exact (hw.enters (G := .none) trivial).body hr K
  | succ calls ih =>
    have hcalls : (calls + 1 + 1) * height = (calls + 1) * height + height := Nat.succ_mul _ _
    refine ⟨fun hr p hp e he K => ?_, fun hr K => ?_, nofun⟩
    · have hN := N.part hr (Routine.mem_parts_of_fallback hp he)
      refine (callFree_walks height (by omega) (by omega)).eval
        ⟨⟨hN, hheight _ hN⟩, hplain _ hr p hp e he, ?_⟩ K
      simp
    · have hw := lasting_walks_of_enters ih height hle (by omega)
      exact runBody_acts hw fun n hn => ⟨N.part hr (List.mem_append_right _ hn),
        hheight _ (N.part hr (List.mem_append_right _ hn))⟩

end

/-! ### Computations that do not run out of fuel -/

/-- What comes after an answer is all that matters for what comes after an outcome. -/
theorem Run.follow_lasts {α β : Type} {o : Except Stop α × Machine}
    (ho : o.1 ≠ .error .outOfFuel) {k k' : α → Machine → Except Stop β × Machine}
    (hk : ∀ a m, o = (.ok a, m) → k a m = k' a m ∧ (k a m).1 ≠ .error .outOfFuel) :
    Run.follow o k = Run.follow o k' ∧ (Run.follow o k).1 ≠ .error .outOfFuel := by
  rcases o with ⟨s | a, m⟩
  · refine ⟨rfl, fun h => ho ?_⟩
    cases h
    rfl
  · exact hk a m rfl

/-- Parameters without fallbacks are bound in the same way by all walkers. -/
theorem bindParams_ok {params : List Param} (hp : ∀ p ∈ params, p.fallback = none)
    (scope : ScopeId) (bound : Table Value) (args : List Value) (L : RunLimits)
    (m : Machine) :
    ∃ bound' m', ∀ w,
      (bindParams w scope bound params args).outcome L m = (.ok bound', m') := by
  induction params generalizing bound args m with
  | nil => exact ⟨bound, m, fun _ => rfl⟩
  | cons p params ih =>
    obtain ⟨bound', m', h⟩ := ih (fun q hq => hp q (List.mem_cons_of_mem _ hq))
      (bound.insert p.name (args.headD .undefined)) args.tail
      ((Change.declare scope p.name (args.headD .undefined)).apply m)
    refine ⟨bound', m', fun w => ?_⟩
    rw [Discipline.bindParams_cons (hp p List.mem_cons_self),
      Run.outcome_bind_ok (Run.outcome_modify _ _ _)]
    exact h w

namespace Discipline

variable {D : Discipline N} {K : Stock N} {calls : Nat} {α β : Type} [Carries α] [Carries β]

/-- Two computations that do the same and do not run out of fuel, where the ceiling allows at
most `calls` more calls inside one another. -/
def Lasts (D : Discipline N) (calls : Nat) (K : Stock N) {α : Type} (x y : Run α) : Prop :=
  ∀ L m, D.inv L m → K ≤ D.stock m → L.maxCallDepth ≤ m.stack.depth + calls →
    x.outcome L m = y.outcome L m ∧ (x.outcome L m).1 ≠ .error .outOfFuel

omit [Carries α] in
theorem Lasts.same {x : Run α} (hx : ∀ L m, (x.outcome L m).1 ≠ .error .outOfFuel) :
    D.Lasts calls K x x :=
  fun L m _ _ _ => ⟨rfl, hx L m⟩

omit [Carries α] in
theorem Lasts.mono {x y : Run α} (h : D.Lasts calls K x y) {K' : Stock N} (hK : K ≤ K') :
    D.Lasts calls K' x y :=
  fun L m hi hK' => h L m hi (Stock.le_trans hK hK')

theorem Lasts.record (kind : StepKind) (loc : Location) (description : String) :
    D.Lasts calls K (record kind loc description)
      (ScriptReplay.record kind loc description) := by
  refine .same fun L m => ?_
  rw [Run.outcome_record]
  split
  · simp
  · simp

omit [Carries β] in
theorem Lasts.bind {x y : Run α} {f g : α → Run β} (hsafe : D.Safe K x)
    (hx : D.Lasts calls K x y)
    (hf : ∀ a (K' : Stock N), K ≤ K' → Carries.within K'.has a →
      D.Lasts calls K' (f a) (g a)) :
    D.Lasts calls K (x >>= f) (y >>= g) := by
  intro L m hi hK hcalls
  obtain ⟨heq, hne⟩ := hx L m hi hK hcalls
  rw [Run.outcome_bind, Run.outcome_bind, ← heq]
  refine Run.follow_lasts hne fun a m₁ ho => ?_
  -- The first computation leaves as many calls in progress as it found.
  have hends := hsafe L m hi hK
  rw [ho] at hends
  obtain ⟨hi₁, hl, hr, ha⟩ := hends
  refine hf a (D.stock m₁) (Stock.le_trans hK (stock_later hl)) ha L m₁ hi₁
    (Stock.le_refl _) ?_
  rw [CallStack.depth_eq_of_shells hr.frames]
  exact hcalls

theorem Lasts.block {x y : Run Completion} (hx : D.Lasts calls K x y) (name : String) :
    D.Lasts calls K (inLoopScope name x) (inLoopScope name y) := by
  intro L m hi hK hcalls
  obtain ⟨hi₁, hl₁⟩ := D.opened name hi
  obtain ⟨heq, hne⟩ := hx L _ hi₁ (Stock.le_trans hK (stock_later hl₁)) hcalls
  rw [Run.outcome_inLoopScope, Run.outcome_inLoopScope, ← heq]
  exact Run.follow_lasts hne fun c m₂ _ => ⟨rfl, by simp⟩

theorem Lasts.call {w w' : Walker} {shown name : String} {r : Routine} {chain : Chain}
    {args : List Value} {loc : Location} {body body' : Table Value → Run Value}
    (hf : K.has (.function (.script name r chain))) (ha : ∀ v ∈ args, K.has v)
    (hsafe : ¬ N.NoFallbacks → ∀ scope, D.Safe K (bindParams w scope .empty r.params args))
    (hbind : ¬ N.NoFallbacks → ∀ scope, D.Lasts calls K
      (bindParams w scope .empty r.params args) (bindParams w' scope .empty r.params args))
    (hbody : ∀ inner, calls = inner + 1 → ∀ params (K' : Stock N), K ≤ K' →
      (∀ v ∈ params.values, K'.has v) → D.Lasts inner K' (body params) (body' params)) :
    D.Lasts calls K (inCall w shown r chain args loc body)
      (inCall w' shown r chain args loc body') := by
  intro L m hi hK hcalls
  rw [Run.outcome_inCall, Run.outcome_inCall]
  by_cases hdepth : L.maxCallDepth ≤ m.stack.depth
  · rw [if_pos hdepth, if_pos hdepth]
    exact ⟨rfl, by simp⟩
  rw [if_neg hdepth, if_neg hdepth]
  have hbound : (bindParams w m.scopes.size .empty r.params args).outcome L
      (m.inScope .function shown chain) =
      (bindParams w' m.scopes.size .empty r.params args).outcome L
      (m.inScope .function shown chain) ∧
      ((bindParams w m.scopes.size .empty r.params args).outcome L
        (m.inScope .function shown chain)).1 ≠
        .error .outOfFuel := by
    by_cases hN : N.NoFallbacks
    · obtain ⟨bound, m₁, ho⟩ := bindParams_ok
        (hN r (K.legal hf).1) m.scopes.size .empty args L (m.inScope .function shown chain)
      rw [ho w, ho w']
      exact ⟨rfl, by simp⟩
    · obtain ⟨hbare, hl₀⟩ := D.entered shown hi (hK _ hf)
      exact hbind hN m.scopes.size L _ ((D.bare_iff hN).1 hbare)
        (Stock.le_trans hK (stock_later hl₀)) hcalls
  rw [← hbound.1]
  refine Run.follow_lasts hbound.2 fun params m₁ ho => ?_
  obtain ⟨hi₁, hl, hr₁, hp⟩ := inv_pushed hi hK hf ha (fun hN => hsafe hN m.scopes.size)
    (Nat.lt_of_not_le hdepth) ho loc r.bodyLoc.line
  -- The new frame takes one of the calls that are left.
  have hdepth₁ : (m₁.pushed shown params loc r.bodyLoc.line m.scopes.size).stack.depth =
      m.stack.depth + 1 := by
    show m₁.stack.depth + 1 = m.stack.depth + 1
    rw [CallStack.depth_eq_of_shells hr₁.frames]
    rfl
  obtain ⟨inner, rfl⟩ := Nat.exists_eq_add_one_of_ne_zero (show calls ≠ 0 by omega)
  obtain ⟨heq, hne⟩ :=
    hbody inner rfl params _ (Stock.le_trans hK (stock_later hl)) hp L _ hi₁ (Stock.le_refl _)
    (by omega)
  rw [← heq]
  exact Run.follow_lasts hne fun v m₂ _ => ⟨rfl, by simp⟩

omit [Carries α] [Carries β] in
theorem Lasts.tell (recorded : Bool) (kind : StepKind) (loc : Location)
    (words : Heap → String) :
    D.Lasts calls K (tell recorded kind loc words)
      (ScriptReplay.tell recorded kind loc words) := by
  refine .same fun L m => ?_
  rw [Run.outcome_tell, Run.outcome_record]
  split
  · split <;> simp
  · simp

theorem Lasts.toldCall {w w' : Walker} {shown name : String} {r : Routine} {chain : Chain}
    {args : List Value} {loc : Location} {body body' : Run Value}
    (hf : K.has (.function (.script name r chain))) (ha : ∀ v ∈ args, K.has v)
    (hloc : N.Place loc)
    (hsafe : ¬ N.NoFallbacks → ∀ scope, D.Safe K (bindParams w scope .empty r.params args))
    (hsafe' : D.Safe K body)
    (hbind : ¬ N.NoFallbacks → ∀ scope, D.Lasts calls K
      (bindParams w scope .empty r.params args) (bindParams w' scope .empty r.params args))
    (hbody : ∀ inner, calls = inner + 1 → D.Lasts inner K body body') (recorded : Bool) :
    D.Lasts calls K (ScriptReplay.toldCall recorded w shown r chain args loc body)
      (ScriptReplay.toldCall recorded w' shown r chain args loc body') := by
  have htell : ∀ (K' : Stock N) (kind : StepKind) (words : Heap → String), kind ≠ .error →
      D.Safe K' (ScriptReplay.tell recorded kind loc words) :=
      fun _ _ words hk => .tell hk hloc _ words
  refine Lasts.bind ?_ (.call hf ha hsafe hbind fun inner hcalls params K' hK _ => ?_)
    fun result K' _ _ => ?_
  · exact .call hf ha hloc hsafe fun params K' hK _ =>
      .bind (htell K' _ _ (by decide)) fun _ _ hK' _ => hsafe'.mono (Stock.le_trans hK hK')
  · refine Lasts.bind (htell K' _ _ (by decide)) (.tell _ _ _ _) fun _ K'' hK' _ => ?_
    exact (hbody inner hcalls).mono (Stock.le_trans hK hK')
  · exact Lasts.bind (htell K' _ _ (by decide)) (.tell _ _ _ _) fun _ _ _ _ =>
      .same fun L m => by
      simp

/-- Computations made of actions with lasting fuel do not run out of it. -/
theorem lasts_of_acts {x y : Run α} (h : Acts G K x y) (hG : G = .lasting calls) :
    D.Lasts calls K x y := by
  induction h generalizing calls with
  | pure ha => exact .same fun L m => by simp
  | bind hx _ ihx ihf =>
    exact (ihx hG).bind (safe_of_acts hx).1 fun a K' hK ha => ihf a K' hK ha hG
  | look _ ih =>
    intro L m hi hK hcalls
    rw [Run.outcome_get_bind, Run.outcome_get_bind]
    exact ih m m (D.stock m) (.refl m) hK
      (fun v hv => D.sound_held hi hv) (D.sized hi) hG L m hi (Stock.le_refl _) hcalls
  | ceilings _ ih =>
    intro L m hi hK hcalls
    rw [Run.outcome_read_bind, Run.outcome_read_bind]
    exact ih L L (Gap.between_self _ L) (D.ceiling hi) (D.ceiling hi) hG L m hi hK hcalls
  | fail _ => exact .same fun L m => by simp
  | stopAtCeiling hraised _ _ _ _ =>
    rw [hraised] at hG
    cases hG
  | noFuel hends =>
    rw [hG] at hends
    exact hends.elim
  | stopWithoutFuel hdiffers _ _ =>
    rw [hG] at hdiffers
    exact hdiffers.elim
  | record _ _ => exact .record _ _ _
  | @say _ K line kind loc description hk hloc =>
    refine Lasts.bind (D := D) (K := K)
      (.change (.print line) (by simp [Change.values]) trivial) ?_
      fun _ _ _ _ => .record kind loc description
    exact .same fun L m => by simp
  | change c _ _ _ => exact .same fun L m => by simp
  | newSlot _ _ => exact .same fun L m => by simp
  | makeFunction _ _ =>
    refine .same fun L m => ?_
    rw [Run.outcome_makeFunction]
    simp
  | block _ ih => exact (ih hG).block _
  | call hf hargs hloc hbind _ hbody ihbind ihbody =>
    refine .toldCall hf hargs hloc
      (fun hN scope => (safe_of_acts (hbind hN scope)).1) (safe_of_acts hbody).1
      (fun hN scope => ihbind hN scope hG) (fun inner hcalls => ihbody ?_) _
    rw [hG, hcalls]
    rfl

end Discipline

/-! ### Programs that finish -/

/-- With the height of the program for each call that the ceiling allows, and for two more,
fuel lasts. -/
theorem runFrom_lasts {L : RunLimits} {p : Program} (hp : p.region.PlainFallbacks)
    {fuel fuel' : Nat} (hle : fuel ≤ fuel') (hf : (L.maxCallDepth + 2) * p.height ≤ fuel) :
    runFrom L fuel p = runFrom L fuel' p ∧ (runFrom L fuel p).1 ≠ .error .outOfFuel := by
  have hheight : ∀ n, p.region.has n → n.height ≤ p.height := fun n hn => Program.height_le hn
  have hbody : ∀ s ∈ p.body, (p.region.upTo p.height).has (.stmt s) :=
    fun s hs => ⟨Program.region_stmt hs, hheight _ (Program.region_stmt hs)⟩
  have hsplit :
      (L.maxCallDepth + 2) * p.height = (L.maxCallDepth + 1) * p.height + p.height :=
    Nat.succ_mul _ _
  have hw :
      Walks (.lasting L.maxCallDepth) (p.region.upTo p.height) (walker fuel) (walker fuel') :=
    lasting_walks_of_enters (lasting_enters hp hheight L.maxCallDepth) p.height hle (by omega)
  have hinitial : (Discipline.scoping p).inv L (.initial L) :=
    ⟨Machine.formed_initial _ L, fun _ => rfl⟩
  have hacts : Acts (.lasting L.maxCallDepth) ((Discipline.scoping p).stock (.initial L))
      (runProgram fuel p) (runProgram fuel' p) := runProgram_acts hbody hw
  exact Discipline.lasts_of_acts hacts rfl L _ hinitial
    (Stock.le_refl _) (Nat.le_add_left _ _)

/-- Programs whose fallbacks come to no call always finish: with enough fuel, and with any
more, the execution is there and it is always the same. -/
theorem Execution.ofProgram?_eq_some {L : RunLimits} {p : Program}
    (hp : p.region.PlainFallbacks) {fuel : Nat} (hf : enoughFuel L p ≤ fuel) :
    Execution.ofProgram? L fuel p = some (Execution.ofProgram L p) := by
  have hneed : (L.maxCallDepth + 2) * p.height ≤ enoughFuel L p := by
    have := Nat.mul_le_mul_left (L.maxCallDepth + 2) (Nat.le_add_right p.height 2)
    unfold enoughFuel
    omega
  obtain ⟨heq, hne⟩ := runFrom_lasts hp hf hneed
  have hsame : Execution.ofProgram? L fuel p = Execution.ofProgram? L (enoughFuel L p) p := by
    unfold Execution.ofProgram?
    rw [heq]
  obtain ⟨e, he⟩ : ∃ e, Execution.ofProgram? L (enoughFuel L p) p = some e := by
    unfold Execution.ofProgram?
    rcases ho : runFrom L (enoughFuel L p) p with ⟨(f | _) | _, m⟩
    · exact ⟨_, rfl⟩
    · rw [ho] at hne
      exact absurd rfl hne
    · exact ⟨_, rfl⟩
  rw [hsame]
  unfold Execution.ofProgram
  rw [he]
  rfl

/-- A function that calls itself without end.  Its parameter has a fallback. -/
def callingItself : Routine :=
  ⟨some "f", [⟨"x", some (.null default)⟩],
    .value (.call (.ident "f" default) [] default), false, false, default,
    default⟩

/-- A program that only a ceiling ends. -/
def bottomless : Program :=
  ⟨[.function callingItself default, .expr (.call (.ident "f" default) [] default) default],
    default⟩

theorem bottomless_plainFallbacks : bottomless.region.PlainFallbacks := by
  intro r hr q hq e he hcalls
  have hpass := Program.params_pass (·.fallback.all fun e => !e.isCall && e.parts.isEmpty) 6
    (by decide +kernel) hr q hq
  rw [he, Option.all_some, Bool.and_eq_true, Bool.not_eq_true'] at hpass
  cases hcalls with
  | call h => exact Bool.noConfusion (hpass.1.symm.trans h)
  | part hpart _ =>
    rw [List.isEmpty_iff.1 hpass.2] at hpart
    cases hpart

theorem bottomless_finishes : bottomless.region.PlainFallbacks ∧
    (Execution.ofProgram ⟨9, 2, 1, 1, 1⟩ bottomless).steps.length = 4 ∧
    Execution.ofProgram? ⟨9, 2, 1, 1, 1⟩
      (enoughFuel ⟨9, 2, 1, 1, 1⟩ bottomless + 1) bottomless =
      some (Execution.ofProgram ⟨9, 2, 1, 1, 1⟩ bottomless) :=
  ⟨bottomless_plainFallbacks, by decide +kernel,
    Execution.ofProgram?_eq_some bottomless_plainFallbacks (Nat.le_succ _)⟩

end ScriptReplay
