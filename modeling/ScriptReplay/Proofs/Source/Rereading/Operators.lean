/-
Operators, members, calls and arrow functions are read again.

* `members_rereads`, `calls_rereads`, `tierRest_rereads` : repetitions behind an operand, of
  any number of rounds;
* `arrowAhead?_cut`, `arrowAhead?_of_arrowFunction` : whether an arrow function comes next,
  where less or the same is left;
* `assignment_rereads` : expressions.

Design notes: what is left for a second run may end early, and then an arrow function that
came next in the first run may not be seen; where the arrow function was read, it is.
-/
import ScriptReplay.Proofs.Source.Rereading.Primary

namespace ScriptReplay

namespace Grammar

open Parse

variable {shallow : Prop} {view : View} {grow : Bool} {i m n : Nat}
  {s : Stream} {r r' : Rules}

/-! ### Members and calls -/

theorem accessKey?_rereads {α : Type} [Bare α] {f g : Option Key → Parse α}
    (hr : r.Reread shallow r')
    (hkey : ∀ key key' s₁, s₁.rest.length < s.rest.length → bare key' = bare key →
      Rereads shallow view false i i (m - 1) s₁ (f (some key)) (g (some key')))
    (hnone : Rereads shallow view grow i i m s (f none) (g none)) :
    Rereads shallow view grow i i m s (accessKey? r >>= f) (accessKey? r' >>= g) := by
  unfold accessKey?
  simp only [bind_assoc]
  refine .eatSymbol rfl (fun s₁ hlt => ?_) ?_
  · simp only [↓reduceIte, bind_assoc, pure_bind]
    refine .step .expectPropertyName ?_
    intro n n' s₂ hlt₂ hn
    rw [show n' = n from hn]
    exact (hkey _ _ s₂ (by omega) rfl).mono id (by omega)
  · simp only [Bool.false_eq_true, ↓reduceIte, bind_assoc]
    refine .eatSymbol rfl (fun s₁ hlt => ?_) hnone
    simp only [↓reduceIte, bind_assoc, pure_bind]
    refine .step hr.expr ?_
    intro e e' s₂ hlt₂ he
    refine .token (.expectSymbol rfl _) ?_
    intro s₃ hlt₃
    refine (hkey _ _ s₃ (by omega) ?_).mono id (by omega)
    show Key.bare _ = Key.bare _
    simp only [Key.bare, show e'.bare = e.bare from he]

theorem head_of_rest_nil (hs : s.rest = []) (hfinal : s.final.kind = .finish) :
    s.head.kind = .finish := by
  rw [Stream.head, hs]
  exact hfinal

theorem eq_nil_of_length_le_zero (h : s.rest.length ≤ 0) : s.rest = [] :=
  List.length_eq_zero_iff.1 (Nat.le_zero.1 h)

theorem bare_member {e e' : Expr} {key key' : Key} {l l' : Location} (he : bare e' = bare e)
    (hkey : bare key' = bare key) :
    bare (Expr.member e' key' l') = bare (Expr.member e key l) := by
  show Expr.bare _ = Expr.bare _
  simp only [Expr.bare, show e'.bare = e.bare from he, show key'.bare = key.bare from hkey]

theorem members_rereads (hr : r.Reread shallow r') (hn : view = .nothing ∨ s.rest.length ≤ n)
    {e e' : Expr} (he : bare e' = bare e) :
    Rereads shallow view false i i (m + 1) s (members r n e) (members r' m e') := by
  induction n generalizing s m e e' with
  | zero =>
    refine .of_exhausted he rfl (hn.imp_right eq_nil_of_length_le_zero) fun t ht => ?_
    exact members_eq ht rfl rfl m e'
  | succ n ih =>
    refine .fuelLast (y := fun m => members r' m e') m (fun m _ => ?_) fun t hnil ht => ?_
    · refine accessKey?_rereads hr ?_ (.pure he)
      intro key key' s₁ hlt hkey
      refine .pass (.spanFrom _ _) ?_
      intro l l' s₂ hle _
      have hfuel : view = .nothing ∨ s₂.rest.length ≤ n := hn.imp_right fun h => by omega
      exact ih hfuel (bare_member he hkey)
    · have hhead := head_of_rest_nil hnil ht
      rw [members_eq hhead rfl rfl, members_eq hhead rfl rfl]

theorem bare_call {e e' : Expr} {args args' : List Expr} {l l' : Location}
    (he : bare e' = bare e) (hargs : bare args' = bare args) :
    bare (Expr.call e' args' l') = bare (Expr.call e args l) := by
  show Expr.bare _ = Expr.bare _
  simp only [Expr.bare, Expr.bareList_eq, show e'.bare = e.bare from he, hargs]

theorem calls_rereads (hr : r.Reread shallow r') (hn : view = .nothing ∨ s.rest.length ≤ n)
    {e e' : Expr} (he : bare e' = bare e) :
    Rereads shallow view false i i (m + 1) s (calls r n e) (calls r' m e') := by
  induction n generalizing s m e e' with
  | zero =>
    refine .of_exhausted he rfl (hn.imp_right eq_nil_of_length_le_zero) fun t ht => ?_
    exact calls_eq ht rfl m e'
  | succ n ih =>
    refine .fuelLast (y := fun m => calls r' m e') m (fun m _ => ?_) fun t hnil ht => ?_
    · refine accessKey?_rereads hr ?_ ?_
      · intro key key' s₁ hlt hkey
        refine .pass (.spanFrom _ _) ?_
        intro l l' s₂ hle _
        have hfuel : view = .nothing ∨ s₂.rest.length ≤ n := hn.imp_right fun h => by omega
        exact ih hfuel (bare_member he hkey)
      · refine .atSymbol (fun _ => ?_) fun _ => .pure he
        refine .step (arguments_rereads hr) ?_
        intro args args' s₁ hlt hargs
        refine .pass (.spanFrom _ _) ?_
        intro l l' s₂ hle _
        have hfuel : view = .nothing ∨ s₂.rest.length ≤ n := hn.imp_right fun h => by omega
        exact ih hfuel (bare_call he hargs)
    · have hhead := head_of_rest_nil hnil ht
      rw [calls_eq hhead rfl, calls_eq hhead rfl]

theorem ne_finish_of_isKeyword {kind : TokenKind} {w : Keyword}
    (h : kind.isKeyword w = true) : kind ≠ .finish ∧ kind.parens? i = some i := by
  cases kind with
  | keyword _ => exact ⟨nofun, rfl⟩
  | _ => cases h

theorem constructionRest_rereads (hr : r.Reread shallow r') (start start' : Location)
    {head head' : Expr} (hhead : bare head' = bare head) :
    Rereads shallow view false i i m s (constructionRest r start head)
      (constructionRest r' start' head') := by
  refine .remaining fun k _ => ?_
  refine .pass (members_rereads hr (.inr (Nat.le_of_eq s.size_eq.symm)) hhead) ?_
  intro e e' _ _ he
  refine .pass (optionalArguments_rereads hr) ?_
  intro args args' _ _ hargs
  refine .spanned fun _ _ => ?_
  show Expr.bare _ = Expr.bare _
  simp only [Expr.bare, Expr.bareList_eq, show e'.bare = e.bare from he, hargs]

theorem construction_rereads (hr : r.Reread shallow r') (hn : s.rest.length < n)
    (hs : s.head.kind.isKeyword .newKw = true) :
    Rereads shallow view true i i m s (construction r n) (construction r' m) := by
  induction n generalizing s m view with
  | zero => exact absurd hn (Nat.not_lt_zero _)
  | succ n ih =>
    refine .fuel (y := construction r') (fun m => ?_) m
    refine .fromHere ?_
    intro start'
    refine .token
      (.skip (ne_finish_of_isKeyword (i := i) hs).1 (ne_finish_of_isKeyword hs).2) ?_
    intro s₁ hlt
    refine .atKeyword (fun hnew => ?_) fun _ => ?_
    · refine .step (ih (by omega) hnew) ?_
      intro _ _ _ _ he
      exact constructionRest_rereads hr _ _ he
    · refine .step (primary_rereads hr) ?_
      intro _ _ _ _ he
      exact constructionRest_rereads hr _ _ he

theorem callChain_rereads (hr : r.Reread shallow r') :
    Rereads shallow view true i i m s (callChain r) (callChain r') := by
  have hrest : ∀ {head head' : Expr} {m : Nat} {s₂ : Stream}, bare head' = bare head →
      Rereads shallow view false i i m s₂ (remaining >>= fun n => calls r n head)
        (remaining >>= fun n => calls r' n head') :=
    fun hhead => .remaining fun k _ =>
      calls_rereads hr (.inr (Nat.le_of_eq (Stream.size_eq _).symm)) hhead
  unfold callChain
  refine .atKeyword (fun hnew => ?_) fun _ => ?_
  · refine .remaining fun k _ => ?_
    have hfuel : s.rest.length < s.size + 1 := by
      rw [s.size_eq]
      omega
    refine .step (construction_rereads hr hfuel hnew) ?_
    intro head head' _ _ hhead
    exact hrest hhead
  · refine .step (primary_rereads hr) ?_
    intro head head' _ _ hhead
    exact hrest hhead

/-! ### Operators -/

theorem exists_target_of_bare_eq {e e' : Expr} {t : Target} (he : bare e' = bare e)
    (ht : e.target? = some t) : ∃ t', e'.target? = some t' ∧ bare t' = bare t := by
  refine Expr.exists_target_of_bare (e := e') (t := t) ?_
  rw [show e'.bare = e.bare from he]
  cases e with
  | ident n l =>
    cases ht
    rfl
  | member o k l =>
    cases ht
    rfl
  | _ => cases ht

theorem updateTarget_rereads {e e' : Expr} (he : bare e' = bare e) :
    Rereads shallow view false i i m s (updateTarget e) (updateTarget e') := by
  unfold updateTarget
  cases ht : e.target? with
  | none => exact .fails fun _ h => by cases h
  | some t =>
    obtain ⟨t', ht', hbare⟩ := exists_target_of_bare_eq he ht
    rw [ht']
    exact .pure hbare

theorem eq_of_updateTarget {e : Expr} {t : Target} {s' : Stream}
    (h : updateTarget e s = .ok (t, s')) : s = s' := by
  unfold updateTarget at h
  cases ht : e.target? with
  | none =>
    rw [ht] at h
    cases h
  | some t' =>
    rw [ht] at h
    cases h
    rfl

theorem updateOp?_spec {k : TokenKind} {op : UpdateOp} (h : updateOp? k = some op) :
    k ≠ .finish ∧ k.parens? i = some i := by
  unfold updateOp? at h
  split at h
  · exact ⟨nofun, rfl⟩
  · exact ⟨nofun, rfl⟩
  · cases h

theorem bare_update {op : UpdateOp} {before : Bool} {t t' : Target} {l l' : Location}
    (ht : bare t' = bare t) :
    bare (Expr.update op before t' l') = bare (Expr.update op before t l) := by
  show Expr.bare _ = Expr.bare _
  simp only [Expr.bare, show t'.bare = t.bare from ht]

/-- What follows an operand: an operator that counts it, or nothing. -/
def countedRest (e : Expr) : Option UpdateOp → Parse Expr
  | some op => do
    let target ← updateTarget e
    skip
    return .update op false target (← spanFrom e.loc)
  | none => return e

theorem counted_rereads (hr : r.Reread shallow r') :
    Rereads shallow view true i i m s (counted r) (counted r') := by
  refine .step (callChain_rereads hr) ?_
  intro e e' s₁ _ he
  refine .peekNext (p := fun t => if t.newlineBefore then none else updateOp? t.kind)
    (d := none) (f := countedRest e) (g := countedRest e') (fun t ht => ?_)
    (fun t t' halike => ?_) (fun h => ?_) fun _ => .pure he
  · rw [ht]
    exact ite_self _
  · rw [halike.newline, TokenKind.congr_of_bare (p := updateOp?)
      (fun _ _ _ => rfl) halike.kind]
  · cases hop : if s₁.head.newlineBefore then none else updateOp? s₁.head.kind with
    | none => exact absurd hop h
    | some op =>
      have hspec := updateOp?_spec (i := i) (Option.ite_none_left_eq_some.1 hop).2
      refine .still (updateTarget_rereads he) eq_of_updateTarget ?_
      intro t t' ht
      refine .token (.skip hspec.1 hspec.2) ?_
      intro _ _
      exact .spanned fun _ _ => bare_update ht

theorem unaryOp?_spec {k : TokenKind} {op : UnaryOp} (h : unaryOp? k = some op) :
    k ≠ .finish ∧ k.parens? i = some i := by
  unfold unaryOp? at h
  split at h
  · exact ⟨nofun, rfl⟩
  · exact ⟨nofun, rfl⟩
  · exact ⟨nofun, rfl⟩
  · exact ⟨nofun, rfl⟩
  · exact ⟨nofun, rfl⟩
  · cases h

theorem unary_rereads (hr : r.Reread shallow r') :
    Rereads shallow view true i i m s (unary r) (unary r') := by
  refine .peekGrow fun t ht => ?_
  rw [TokenKind.congr_of_bare (p := unaryOp?) (fun _ _ _ => rfl) ht.kind,
    TokenKind.congr_of_bare (p := updateOp?) (fun _ _ _ => rfl) ht.kind]
  split
  · next op _ hop =>
    obtain ⟨hne, hd⟩ := unaryOp?_spec (i := i) hop
    refine .token (.skip hne hd) ?_
    intro _ _
    refine .step hr.unary ?_
    intro e e' _ _ he
    refine .pure ?_
    show Expr.bare _ = Expr.bare _
    simp only [Expr.bare, show e'.bare = e.bare from he]
  · next op _ hop =>
    obtain ⟨hne, hd⟩ := updateOp?_spec (i := i) hop
    refine .token (.skip hne hd) ?_
    intro _ _
    refine .step hr.unary ?_
    intro e e' _ _ he
    refine .pass (updateTarget_rereads he) ?_
    intro _ _ _ _ ht
    exact .pure (bare_update ht)
  · refine .eatKeyword (fun _ _ => ?_) (counted_rereads hr)
    refine .step hr.unary ?_
    intro e e' _ _ he
    refine .pure ?_
    show Expr.bare _ = Expr.bare _
    simp only [Expr.bare, show e'.bare = e.bare from he]

theorem bare_binary {op : BinaryOp} {a a' b b' : Expr} {l l' : Location}
    (ha : bare a' = bare a) (hb : bare b' = bare b) :
    bare (Expr.binary op a' b' l') = bare (Expr.binary op a b l) := by
  show Expr.bare _ = Expr.bare _
  simp only [Expr.bare, show a'.bare = a.bare from ha, show b'.bare = b.bare from hb]

theorem powers_rereads (hr : r.Reread shallow r') (hn : s.rest.length ≤ n) :
    Rereads shallow view true i i (m + 1) s (powers r n) (powers r' m) := by
  induction n generalizing s m view with
  | zero => exact .of_rest_nil (unary_rereads hr) (eq_nil_of_length_le_zero hn)
  | succ n ih =>
    refine .fuelGrow (y := powers r') (fun m => ?_) m
    refine .step (unary_rereads hr) ?_
    intro e e' s₁ hlt he
    refine .eatSymbol rfl (fun s₂ hlt₂ => ?_) (.pure he)
    have hexponent :
        Rereads shallow view.between true i i (m + 1) s₂ (powers r n) (powers r' m) :=
      ih (by omega)
    refine .step (hexponent.mono id (Nat.le_succ m)) ?_
    intro _ _ _ _ hb
    exact .pure (bare_binary he hb)

theorem joint?_spec {t : Tier} (ht : ∀ entry ∈ t, entry.1 ≠ .lparen ∧ entry.1 ≠ .rparen)
    {k : TokenKind} {j : Joint} (h : t.joint? k = some j) :
    k ≠ .finish ∧ k.parens? i = some i := by
  obtain ⟨entry, hfind, -⟩ := Option.map_eq_some_iff.1 h
  obtain ⟨hl, hr⟩ := ht entry (List.mem_of_find?_eq_some hfind)
  have hk := List.find?_some hfind
  cases k with
  | symbol sym =>
    obtain rfl : sym = entry.1 := eq_of_beq hk
    refine ⟨nofun, ?_⟩
    show Symbol.parens? i _ = _
    unfold Symbol.parens?
    split
    · next h => exact absurd h hl
    · next h => exact absurd h hr
    · rfl
  | _ => cases hk

theorem joint?_finish (t : Tier) : t.joint? .finish = none := by
  rw [Tier.joint?, List.find?_eq_none.2 (fun _ _ h => by cases h)]
  rfl

theorem joint?_of_bare {t : Tier} {k k' : TokenKind} (h : k'.bare = k.bare) :
    t.joint? k' = t.joint? k := by
  unfold Tier.joint?
  simp only [TokenKind.isSymbol_of_bare h]

/-- What follows joined operands: an operator with one more operand, or nothing. -/
def joinedRest (operand : Parse Expr) (rest : Expr → Parse Expr) (l : Expr) :
    Option Joint → Parse Expr
  | some j => do
    skip
    let r ← operand
    rest (j.join l r)
  | none => return l

theorem tierRest_rereads {N M : Nat} {x y : Parse Expr}
    (hx : ∀ {view : View} {s : Stream}, s.rest.length ≤ N →
      Rereads shallow view true i i M s x y)
    {t : Tier} (ht : ∀ entry ∈ t, entry.1 ≠ .lparen ∧ entry.1 ≠ .rparen)
    (hn : view = .nothing ∨ s.rest.length ≤ n) (hN : s.rest.length ≤ N) (hM : m + 1 ≤ M)
    {l l' : Expr} (hl : bare l' = bare l) :
    Rereads shallow view false i i (m + 1) s (tierRest t x n l) (tierRest t y m l') := by
  induction n generalizing s m l l' with
  | zero =>
    refine .of_exhausted hl rfl (hn.imp_right eq_nil_of_length_le_zero) fun u hu => ?_
    exact tierRest_eq hu (joint?_finish t) m l'
  | succ n ih =>
    refine .fuelLast (y := fun m => tierRest t y m l') m (fun k hk => ?_) fun u hnil hu => ?_
    · have hfinish : ∀ u : Token, u.kind = .finish → t.joint? u.kind = none := by
        intro u hu
        rw [hu, joint?_finish]
      refine .peekNext (p := fun u => t.joint? u.kind) (d := none)
        (f := joinedRest x (tierRest t x n) l) (g := joinedRest y (tierRest t y k) l')
        hfinish (fun _ _ h => joint?_of_bare h.kind) ?_ fun _ => .pure hl
      intro hjoint
      cases hj : t.joint? s.head.kind with
      | none => exact absurd hj hjoint
      | some j =>
        obtain ⟨hne, hd⟩ := joint?_spec (i := i) ht hj
        refine .token (.skip hne hd) ?_
        intro s₁ hlt
        have hoperand : Rereads shallow view.between true i i M s₁ x y := hx (by omega)
        refine .step (hoperand.mono id (by omega)) ?_
        intro b b' s₂ hlt₂ hb
        -- the operator and its operand have been read, so a round less is enough for the rest
        have hfuel : view = .nothing ∨ s₂.rest.length ≤ n := hn.imp_right fun h => by omega
        have hrest : Rereads shallow view false i i (k + 1) s₂
            (tierRest t x n (j.join l b)) (tierRest t y k (j.join l' b')) :=
          ih hfuel (by omega) (by omega) (bare_join j hl hb)
        exact hrest.mono id (by omega)
    · have hhead := head_of_rest_nil hnil hu
      rw [tierRest_eq hhead (joint?_finish t), tierRest_eq hhead (joint?_finish t)]

theorem layered_rereads {N M : Nat} {x y : Parse Expr}
    (hx : ∀ {view : View} {s : Stream}, s.rest.length ≤ N →
      Rereads shallow view true i i (M + 1) s x y)
    {ts : List Tier} (hts : ∀ t ∈ ts, ∀ entry ∈ t, entry.1 ≠ .lparen ∧ entry.1 ≠ .rparen)
    (hN : s.rest.length ≤ N) :
    Rereads shallow view true i i (M + 1) s (layered x ts) (layered y ts) := by
  induction ts generalizing s view with
  | nil => exact hx hN
  | cons t tighter ih =>
    have htighter : ∀ {view : View} {s : Stream}, s.rest.length ≤ N →
        Rereads shallow view true i i (M + 1) s (layered x tighter) (layered y tighter) :=
      ih fun t' ht' => hts t' (List.mem_cons_of_mem t ht')
    refine .step (htighter hN) ?_
    intro e e' s₁ hlt he
    refine .remaining fun k hk => ?_
    have ht := hts t List.mem_cons_self
    have hfuel : s₁.rest.length ≤ s₁.size := Nat.le_of_eq s₁.size_eq.symm
    exact tierRest_rereads htighter ht (.inr hfuel) (by omega) (by omega) he

theorem joined_rereads (hr : r.Reread shallow r') :
    Rereads shallow view true i i m s (joined r) (joined r') := by
  refine .remaining fun k _ => layered_rereads (powers_rereads hr) (by decide) ?_
  exact Nat.le_of_eq s.size_eq.symm

theorem conditional_rereads (hr : r.Reread shallow r') :
    Rereads shallow view true i i m s (conditional r) (conditional r') := by
  refine .step (joined_rereads hr) ?_
  intro e e' s₁ _ he
  refine .eatSymbol rfl (fun s₂ _ => ?_) (.pure he)
  refine .step hr.expr ?_
  intro a a' _ _ ha
  refine .token (.expectSymbol rfl _) ?_
  intro _ _
  refine .step hr.expr ?_
  intro b b' _ _ hb
  refine .pure ?_
  show Expr.bare _ = Expr.bare _
  simp only [Expr.bare, show e'.bare = e.bare from he, show a'.bare = a.bare from ha,
    show b'.bare = b.bare from hb]

/-! ### Assignment -/

theorem Alike_isSomeName {t t' : Token} (h : t.Alike t') : isSomeName t' = isSomeName t := by
  unfold isSomeName
  rcases TokenKind.eq_or_template h.kind with ⟨-, hk⟩ | ⟨_, _, _, hk, hk', -⟩
  · rw [hk]
  · rw [hk, hk']

theorem afterParens_cut {depth : Nat} {ts ts' rest' : List Token} (h : Cut ts ts')
    (ht : afterParens depth ts' = some rest') :
    ∃ rest, afterParens depth ts = some rest ∧ Cut rest rest' := by
  induction h generalizing depth with
  | nil => cases ht
  | cons halike hs ih =>
    unfold afterParens at ht ⊢
    rw [TokenKind.isSymbol_of_bare halike.kind, TokenKind.isSymbol_of_bare halike.kind] at ht
    split
    · next hl =>
      rw [if_pos hl] at ht
      exact ih ht
    next hl =>
    rw [if_neg hl] at ht
    split
    · next hr =>
      rw [if_pos hr] at ht
      split at ht
      · cases ht
        exact ⟨_, rfl, hs⟩
      · cases ht
        exact ⟨_, rfl, hs⟩
      · exact ih ht
    · next hr =>
      rw [if_neg hr] at ht
      exact ih ht

theorem afterArrowParams_cut {ts ts' rest' : List Token} (h : Cut ts ts')
    (ht : afterArrowParams ts' = some rest') :
    ∃ rest, afterArrowParams ts = some rest ∧ Cut rest rest' := by
  cases h with
  | nil => cases ht
  | cons halike hs =>
    unfold afterArrowParams at ht ⊢
    dsimp only at ht ⊢
    rw [Alike_isSomeName halike, TokenKind.isSymbol_of_bare halike.kind] at ht
    split
    · next hname =>
      rw [if_pos hname] at ht
      cases ht
      exact ⟨_, rfl, hs⟩
    next hname =>
    rw [if_neg hname] at ht
    split
    · next hl =>
      rw [if_pos hl] at ht
      exact afterParens_cut (.cons halike hs) ht
    · next hl =>
      rw [if_neg hl] at ht
      cases ht

theorem isName_of_bare {k k' : TokenKind} (h : k'.bare = k.bare) (n : String) :
    k'.isName n = k.isName n :=
  TokenKind.congr_of_bare (p := (·.isName n)) (fun _ _ _ => rfl) h

theorem startsAsyncArrow_alike {t u t' u' : Token} {ts ts' : List Token} (ht : t.Alike t')
    (hu : u.Alike u') :
    startsAsyncArrow (t' :: u' :: ts') = startsAsyncArrow (t :: u :: ts) := by
  simp only [startsAsyncArrow, isName_of_bare ht.kind, hu.newline, Alike_isSomeName hu,
    TokenKind.isSymbol_of_bare hu.kind]

/-- The tokens start with an arrow function: its arrow stands on the line where its
parameters end. -/
theorem arrowAhead?_eq_some {ts : List Token} {b : Bool} : arrowAhead? ts = some b ↔
    startsAsyncArrow ts = b ∧ ∃ t rest,
      afterArrowParams (if b then ts.drop 1 else ts) = some (t :: rest) ∧
      t.kind.isSymbol .arrow = true ∧ t.newlineBefore = false := by
  unfold arrowAhead?
  constructor
  · intro h
    dsimp only at h
    split at h
    · next t rest hafter =>
      split at h
      · next ht =>
        obtain rfl := Option.some.inj h
        rw [Bool.and_eq_true, Bool.not_eq_true'] at ht
        exact ⟨rfl, t, rest, hafter, ht⟩
      · cases h
    · cases h
  · rintro ⟨rfl, t, rest, hafter, hk, hnewline⟩
    dsimp only
    rw [hafter]
    dsimp only
    rw [hk, hnewline]
    rfl

theorem afterArrowParams_singleton (t a : Token) (rest : List Token) :
    afterArrowParams [t] ≠ some (a :: rest) := by
  simp only [afterArrowParams, afterParens]
  split
  · simp
  · split
    · simp
    · nofun

/-- An arrow function that is seen before the cut is there without the cut. -/
theorem arrowAhead?_cut {ts ts' : List Token} (h : Cut ts ts') {b : Bool}
    (ht : arrowAhead? ts' = some b) : arrowAhead? ts = some b := by
  obtain ⟨hasync, a', rest', hafter, hk, hnewline⟩ := arrowAhead?_eq_some.1 ht
  have hdrop : Cut (if b then ts.drop 1 else ts) (if b then ts'.drop 1 else ts') := by
    cases b with
    | false => exact h
    | true =>
      cases h with
      | nil => exact .nil
      | cons _ hs => exact hs
  obtain ⟨rest, hrest, hcut⟩ := afterArrowParams_cut hdrop hafter
  cases hcut with
  | @cons a _ rest _ ha hs =>
    refine arrowAhead?_eq_some.2 ⟨?_, a, rest, hrest, ?_, ?_⟩
    · cases h with
      | nil => cases ht
      | cons ht₀ hs =>
        cases hs with
        | nil => exact absurd (hasync ▸ hafter) (afterArrowParams_singleton _ _ _)
        | cons hu₀ hs => rw [← hasync, startsAsyncArrow_alike ht₀ hu₀]
    · rw [← hk, TokenKind.isSymbol_of_bare ha.kind]
    · rw [← hnewline, ha.newline]

/-! #### Parameters -/

theorem parenDepth_alike {ts ts' : List Token} (h : List.Forall₂ Token.Alike ts ts')
    (d : Nat) : parenDepth d ts' = parenDepth d ts := by
  induction h generalizing d with
  | nil => rfl
  | cons ht _ ih =>
    unfold parenDepth at ih ⊢
    simp only [List.foldlM_cons, TokenKind.congr_of_bare (p := (·.parens? d))
      (fun _ _ _ => rfl) ht.kind, ih]

/-- Among parentheses that are open, those in balanced tokens are passed over. -/
theorem afterParens_balanced {ts : List Token} {d e : Nat} (h : parenDepth d ts = some e)
    (rest : List Token) : afterParens (d + 1) (ts ++ rest) = afterParens (e + 1) rest := by
  induction ts generalizing d with
  | nil =>
    cases h
    rfl
  | cons t ts ih =>
    unfold parenDepth at h
    rw [List.foldlM_cons] at h
    obtain ⟨d', hd', hts⟩ := Option.bind_eq_some_iff.1 h
    have hih := ih hts
    show afterParens (d + 1) (t :: (ts ++ rest)) = _
    rw [afterParens.eq_def]
    dsimp only
    cases hk : t.kind with
    | symbol sym =>
      rw [hk] at hd'
      change sym.parens? d = some d' at hd'
      unfold Symbol.parens? at hd'
      split at hd'
      · cases hd'
        exact hih
      · split at hd'
        · cases hd'
        · cases hd'
          exact hih
      · next hl hr =>
        cases hd'
        have hnl : (TokenKind.symbol sym).isSymbol .lparen = false := beq_false_of_ne hl
        have hnr : (TokenKind.symbol sym).isSymbol .rparen = false := beq_false_of_ne hr
        rw [hnl, hnr]
        exact hih
    | _ =>
      rw [hk] at hd'
      cases hd'
      exact hih

/-- Among parentheses, the tokens up to the one that closes the first are passed. -/
theorem afterParens_enclosed {l u : Token} {ts rest : List Token}
    (hl : l.kind = .symbol .lparen) (hu : u.kind = .symbol .rparen)
    (hts : parenDepth 0 ts = some 0) :
    afterParens 0 (l :: (ts ++ u :: rest)) = some rest := by
  rw [afterParens.eq_def]
  dsimp only
  rw [hl]
  show afterParens (0 + 1) (ts ++ u :: rest) = some rest
  rw [afterParens_balanced hts, afterParens.eq_def]
  dsimp only
  rw [hu]
  rfl

theorem exists_rest_of_head {kind : TokenKind} (hk : kind ≠ .finish)
    (hs : s.final.kind = .finish) (h : s.head.kind = kind) :
    ∃ t, s.rest = t :: s.tail.rest ∧ t.kind = kind := by
  cases hrest : s.rest with
  | nil =>
    rw [Stream.head, hrest] at h
    exact absurd (h.symm.trans hs) hk
  | cons t rest =>
    rw [Stream.head, hrest] at h
    exact ⟨t, by rw [(s.tail_of hrest).1], h⟩

theorem expectSymbol_eq_ok {sym : Symbol} {place : String} (hs : s.final.kind = .finish)
    {u : Unit} {s' : Stream} (h : expectSymbol sym place s = .ok (u, s')) :
    s' = s.tail ∧ ∃ t, s.rest = t :: s'.rest ∧ t.kind.isSymbol sym = true := by
  unfold expectSymbol at h
  cases hk : s.head.kind.isSymbol sym with
  | true =>
    rw [bind_eq (eatSymbol_of rfl hk)] at h
    cases h
    obtain ⟨t, hrest, ht⟩ :=
      exists_rest_of_head (fun hfinish => by rw [hfinish] at hk; cases hk) hs rfl
    exact ⟨rfl, t, hrest, ht ▸ hk⟩
  | false =>
    rw [bind_eq (eatSymbol_of_ne rfl hk)] at h
    cases h

theorem expectName_eq_ok (hs : s.final.kind = .finish) {name : String} {s' : Stream}
    (h : expectName s = .ok (name, s')) :
    s' = s.tail ∧ ∃ t, s.rest = t :: s'.rest ∧ isSomeName t = true := by
  unfold expectName at h
  rw [bind_eq (x := peek) (s := s) rfl] at h
  cases hn : s.head.kind with
  | name n =>
    rw [hn] at h
    cases h
    obtain ⟨t, hrest, ht⟩ := exists_rest_of_head (by simp) hs hn
    exact ⟨rfl, t, hrest, by rw [isSomeName, ht]⟩
  | _ =>
    rw [hn] at h
    cases h

theorem final_tail (s : Stream) : s.tail.final = s.final := by
  unfold Stream.tail
  split <;> rfl

theorem eq_symbol_of_isSymbol {kind : TokenKind} {sym : Symbol}
    (h : kind.isSymbol sym = true) : kind = .symbol sym := by
  cases kind with
  | symbol sym' => rw [eq_of_beq (show (sym' == sym) = true from h)]
  | _ => cases h

/-- What is read between parentheses. -/
theorem enclosed_eq_ok {α : Type} [Bare α] {x y : Parse α}
    (hx : Rereads shallow .next false 0 0 0 s.tail x y) (hs : s.final.kind = .finish)
    (hl : s.head.kind = .symbol .lparen) {place : String} {a : α} {s' : Stream}
    (h : (do let a ← x; expectSymbol .rparen place; return a) s.tail = .ok (a, s')) :
    ∃ l inner u, s.rest = l :: (inner ++ u :: s'.rest) ∧ l.kind = .symbol .lparen ∧
      u.kind = .symbol .rparen ∧ parenDepth 0 inner = some 0 ∧ s'.final = s.final := by
  obtain ⟨l, hrest, hlparen⟩ := exists_rest_of_head (by simp) hs hl
  obtain ⟨a, s₁, hrun, h⟩ := bind_eq_ok h
  obtain ⟨_, s₂, hclose, h⟩ := bind_eq_ok h
  cases h
  have hfinal : s.tail.final.kind = .finish := (final_tail s).symm ▸ hs
  obtain ⟨inner, hp, -⟩ := hx hfinal _ _ hrun
  obtain ⟨rfl, u, hu, hrparen⟩ := expectSymbol_eq_ok (hp.final.symm ▸ hfinal) hclose
  refine ⟨l, inner, u, ?_, hlparen, eq_symbol_of_isSymbol hrparen, hp.depth, ?_⟩
  · rw [hrest, hp.rest, hu]
  · rw [final_tail, hp.final, final_tail]

/-- Parameters end where the parenthesis closes that they start with. -/
theorem afterArrowParams_of_arrowParams (hr : r.Reread shallow r')
    (hs : s.final.kind = .finish) {ps : List Param} {s' : Stream}
    (h : arrowParams r s = .ok (ps, s')) : ∃ pre, s.rest = pre ++ s'.rest ∧ pre ≠ [] ∧
      s'.final = s.final ∧
      ∀ pre' rest, List.Forall₂ Token.Alike pre pre' →
        afterArrowParams (pre' ++ rest) = some rest := by
  unfold arrowParams at h
  rw [bind_eq (atSymbol_eq rfl .lparen)] at h
  cases hl : s.head.kind.isSymbol .lparen with
  | true =>
    rw [hl] at h
    obtain ⟨_, s₁, hopen, h⟩ := bind_eq_ok h
    obtain ⟨rfl, -⟩ := expectSymbol_eq_ok hs hopen
    rw [bind_eq (x := remaining) (s := s.tail) rfl] at h
    have hread : Rereads shallow .next false 0 0 0 s.tail _ (parameterItems r' 0) :=
      parameterItems_rereads (n := s.tail.size + 1) hr (by rw [s.tail.size_eq]; omega)
    -- What stands in the parentheses is balanced, so the scan over them ends at the
    -- second one.
    obtain ⟨first, inner, last, hrest, hfirst, hlast, hinner, hfinal⟩ :=
      enclosed_eq_ok hread hs (eq_symbol_of_isSymbol hl) h
    refine ⟨first :: (inner ++ [last]), by simp [hrest], List.cons_ne_nil _ _, hfinal,
      fun pre' rest halike => ?_⟩
    cases halike with
    | @cons _ first' _ _ hfirst' htail =>
      obtain ⟨inner', _, rfl, hinner', hlast'⟩ := Rereads.exists_split htail
      cases hlast' with
      | @cons _ last' _ _ hlast' hnil =>
      cases hnil
      have hlparen := (TokenKind.eq_of_bare hfirst'.kind (by simp [hfirst])).trans hfirst
      have hrparen := (TokenKind.eq_of_bare hlast'.kind (by simp [hlast])).trans hlast
      have happend : first' :: (inner' ++ [last']) ++ rest = first' ::
          (inner' ++ last' :: rest) := by
        simp
      rw [happend, afterArrowParams, isSomeName, hlparen]
      exact afterParens_enclosed hlparen hrparen ((parenDepth_alike hinner' 0).trans hinner)
  | false =>
    rw [hl] at h
    obtain ⟨name, s₁, hname, h⟩ := bind_eq_ok h
    cases h
    obtain ⟨rfl, t, ht, hsome⟩ := expectName_eq_ok hs hname
    refine ⟨[t], ht, List.cons_ne_nil _ _, final_tail s, ?_⟩
    intro pre' rest halike
    cases halike with
    | cons ht' hnil =>
      cases hnil
      rw [List.cons_append, afterArrowParams]
      rw [Alike_isSomeName ht', if_pos hsome]
      rfl

theorem arrowRest_eq_ok {isAsync : Bool} {start : Location} {e : Expr} {s' : Stream}
    (h : arrowRest r isAsync start s = .ok (e, s')) :
    ∃ params s₁ s₂ body s₃, arrowParams r s = .ok (params, s₁) ∧
      expectSymbol .arrow "after arrow parameters" s₁ = .ok ((), s₂) ∧
        arrowBody r s₂ = .ok (body, s₃) ∧ s₃ = s' := by
  obtain ⟨params, s₁, hparams, h⟩ := bind_eq_ok h
  obtain ⟨_, s₂, harrow, h⟩ := bind_eq_ok h
  rw [bind_eq (x := here) (s := s₂) rfl] at h
  obtain ⟨body, s₃, hbody, h⟩ := bind_eq_ok h
  cases h
  exact ⟨params, s₁, s₂, body, _, hparams, harrow, hbody, rfl⟩

theorem arrowFunction_eq_ok {isAsync : Bool} {e : Expr} {s' : Stream}
    (h : arrowFunction r isAsync s = .ok (e, s')) :
    ∃ params s₁ s₂ body s₃, arrowParams r (if isAsync then s.tail else s) = .ok (params, s₁) ∧
      expectSymbol .arrow "after arrow parameters" s₁ = .ok ((), s₂) ∧
        arrowBody r s₂ = .ok (body, s₃) ∧ s₃ = s' := by
  cases isAsync with
  | false =>
    rw [arrowFunction_false, bind_eq (x := here) (s := s) rfl] at h
    exact arrowRest_eq_ok h
  | true =>
    rw [arrowFunction_true, bind_eq (x := here) (s := s) rfl,
      bind_eq (x := skip) (s := s) rfl] at h
    exact arrowRest_eq_ok h

theorem startsAsyncArrow_cut {ts ts' : List Token} (h : Cut ts ts')
    (hlength : 2 ≤ ts'.length) : startsAsyncArrow ts' = startsAsyncArrow ts := by
  cases h with
  | nil => exact absurd hlength (by simp)
  | cons ht hs =>
    cases hs with
    | nil => exact absurd hlength (by simp)
    | cons hu _ => exact startsAsyncArrow_alike ht hu

/-- An arrow function that is read is seen before. -/
theorem arrowAhead?_of_arrowFunction (hr : r.Reread shallow r') (hs : s.final.kind = .finish)
    {b : Bool} {e : Expr} {s' t : Stream} {pre pre' post : List Token}
    (hahead : arrowAhead? s.rest = some b) (hrun : arrowFunction r b s = .ok (e, s'))
    (hrest : s.rest = pre ++ s'.rest) (hrest' : t.rest = pre' ++ post)
    (halike : List.Forall₂ Token.Alike pre pre') (hcut : Cut s.rest t.rest) :
    arrowAhead? t.rest = some b := by
  obtain ⟨params, s₁, s₂, body, s₃, hparams, harrow, hbody, rfl⟩ := arrowFunction_eq_ok hrun
  obtain ⟨hasync, u, more, hseen, -, hnewline⟩ := arrowAhead?_eq_some.1 hahead
  have hs₀ : (if b then s.tail else s).final.kind = .finish := by
    cases b with
    | false => exact hs
    | true => exact (final_tail s).symm ▸ hs
  obtain ⟨params', hparams', hne, hfinal₁, hafter⟩ :=
    afterArrowParams_of_arrowParams hr hs₀ hparams
  obtain ⟨hs₂, a, ha, hak⟩ := expectSymbol_eq_ok (hfinal₁.symm ▸ hs₀) harrow
  have hfinal₂ : s₂.final.kind = .finish := by
    rw [hs₂, final_tail, hfinal₁]
    exact hs₀
  have hbodyRead : Rereads shallow .next true 0 0 0 s₂ (arrowBody r) (arrowBody r') :=
    arrowBody_rereads hr
  obtain ⟨bodyTokens, hp, -⟩ := hbodyRead hfinal₂ _ _ hbody
  -- The word `async` stands in front of an asynchronous one, and nothing in front of
  -- the others.
  obtain ⟨start, hstart, hlength⟩ : ∃ start,
      s.rest = start ++ (if b then s.tail else s).rest ∧
      start.length = b.toNat := by
    cases b with
    | false => exact ⟨[], rfl, rfl⟩
    | true =>
      cases hs' : s.rest with
      | nil =>
        rw [hs'] at hasync
        cases hasync
      | cons t₀ rest => exact ⟨[t₀], by rw [if_pos rfl, (s.tail_of hs').1]; rfl, rfl⟩
  have hdrop : ∀ ts ts' : List Token, ts.length = b.toNat →
      (if b then (ts ++ ts').drop 1 else ts ++ ts') = ts' := by
    intro ts ts' hts
    cases b with
    | false =>
      obtain rfl := List.length_eq_zero_iff.1 hts
      rfl
    | true =>
      obtain ⟨t₀, rfl⟩ := List.length_eq_one_iff.1 hts
      rfl
  -- What is read is that word, the parameters, the arrow and what is read of the body; the
  -- second tokens split there too.
  obtain rfl : pre = start ++ (params' ++ (a :: bodyTokens)) := by
    have happend : pre ++ s₃.rest = (start ++ (params' ++ (a :: bodyTokens))) ++ s₃.rest := by
      rw [← hrest, hstart, hparams', ha, hp.rest]
      simp
    exact List.append_cancel_right happend
  obtain ⟨start', _, rfl, hstart', halike⟩ := Rereads.exists_split halike
  obtain ⟨params'', _, rfl, hparams'', halike⟩ := Rereads.exists_split halike
  cases halike with
  | @cons _ a' _ bodyTokens' ha' hbody' =>
  have ht : t.rest = start' ++ (params'' ++ (a' :: (bodyTokens' ++ post))) := by
    rw [hrest']
    simp
  refine arrowAhead?_eq_some.2 ⟨?_, a', bodyTokens' ++ post, ?_, ?_, ?_⟩
  · rw [← hasync]
    -- Two tokens decide it, and the parameters and the arrow are as many.
    refine startsAsyncArrow_cut hcut ?_
    have hpos := List.length_pos_iff.2 hne
    rw [hparams''.length_eq] at hpos
    rw [ht, List.length_append, List.length_append, List.length_cons]
    omega
  · rw [ht, hdrop _ _ (hstart'.length_eq ▸ hlength)]
    exact hafter params'' _ hparams''
  · exact (TokenKind.isSymbol_of_bare ha'.kind .arrow).trans hak
  · rw [hstart, hdrop _ _ hlength, hparams',
      hafter params' _ (List.forall₂_same.2 fun _ _ => .refl _), ha] at hseen
    rw [ha'.newline]
    cases hseen
    exact hnewline

theorem assignOp?_spec {k : TokenKind} {op : AssignOp} (h : assignOp? k = some op) :
    k ≠ .finish ∧ k.parens? i = some i := by
  unfold assignOp? at h
  split at h <;> first | exact ⟨nofun, rfl⟩ | cases h

/-- What follows the expression that an assignment starts with. -/
def assignmentRest (r : Rules) (left : Expr) : Parse Expr := do
  match assignOp? (← peek).kind with
  | none => return left
  | some op =>
    match left.target? with
    | none => failAt .badAssignment left.loc
    | some target =>
      skip
      let value ← r.expr
      return .assign op target value (left.loc.through value.loc)

theorem assignment_eq (h : arrowAhead? s.rest = none) :
    assignment r s = (conditional r >>= assignmentRest r) s := by
  unfold assignment
  rw [bind_eq (x := get) (s := s) rfl, h]
  rfl

theorem assignmentRest_rereads (hr : r.Reread shallow r') {e e' : Expr}
    (he : bare e' = bare e) :
    Rereads shallow view false i i m s (assignmentRest r e) (assignmentRest r' e') := by
  refine .peekNext (p := fun t => assignOp? t.kind) (d := none)
    (f := fun o => match o with
      | none => return e
      | some op =>
        match e.target? with
        | none => failAt .badAssignment e.loc
        | some target => do
          skip
          let value ← r.expr
          return .assign op target value (e.loc.through value.loc))
    (g := fun o => match o with
      | none => return e'
      | some op =>
        match e'.target? with
        | none => failAt .badAssignment e'.loc
        | some target => do
          skip
          let value ← r'.expr
          return .assign op target value (e'.loc.through value.loc))
    (fun t ht => by rw [ht]; rfl)
      (fun t t' h => TokenKind.congr_of_bare (p := assignOp?) (fun _ _ _ => rfl) h.kind)
    (fun h => ?_) fun _ => .pure he
  cases hop : assignOp? s.head.kind with
  | none => exact absurd hop h
  | some op =>
    obtain ⟨hne, hd⟩ := assignOp?_spec (i := i) hop
    cases htarget : e.target? with
    | none =>
      refine .fails fun _ h => ?_
      cases h
    | some t =>
      obtain ⟨t', htarget', ht⟩ := exists_target_of_bare_eq he htarget
      rw [htarget']
      refine .token (.skip hne hd) ?_
      intro _ _
      refine .step hr.expr ?_
      intro v v' _ _ hv
      refine .pure ?_
      show Expr.bare _ = Expr.bare _
      simp only [Expr.bare, show t'.bare = t.bare from ht, show v'.bare = v.bare from hv]

/-- Where an asynchronous arrow function starts, its word stands. -/
theorem isName_of_startsAsyncArrow (h : startsAsyncArrow s.rest = true) :
    s.head.kind.isName "async" = true := by
  unfold startsAsyncArrow at h
  split at h
  · next t u more hrest =>
    rw [Stream.head, hrest]
    simp only [Bool.and_eq_true] at h
    exact h.1.1
  · cases h

theorem assignment_rereads (hr : r.Reread shallow r') :
    Rereads shallow view true i i m s (assignment r) (assignment r') := by
  cases hahead : arrowAhead? s.rest with
  | some b =>
    have hasync : b = true → s.head.kind.isName "async" = true := fun hb =>
      isName_of_startsAsyncArrow ((arrowAhead?_eq_some.1 hahead).1.trans hb)
    refine .of_read (arrowFunction_rereads hr hasync) ?_
      fun hs t e s' pre pre' post hrun hp hrest halike hpost => ?_
    · unfold assignment
      rw [bind_eq (x := get) (s := s) rfl, hahead]
    · have hcut : Cut s.rest t.rest := by
        rw [hp.rest, hrest]
        exact .append halike hpost.cut
      unfold assignment
      rw [bind_eq (x := get) (s := t) rfl,
        arrowAhead?_of_arrowFunction hr hs hahead hrun hp.rest hrest halike hcut]
  | none =>
    have hread : Rereads shallow view true i i m s (conditional r >>= assignmentRest r)
        (conditional r' >>= assignmentRest r') := by
      refine .step (conditional_rereads hr) ?_
      intro e e' _ _ he
      exact assignmentRest_rereads hr he
    refine .of_eq hread (assignment_eq hahead) fun t _ _ hleft _ => assignment_eq ?_
    -- an arrow function that is seen before the cut would have been seen without it
    refine Option.eq_none_iff_forall_not_mem.2 fun b hb => ?_
    rw [arrowAhead?_cut hleft.cut hb] at hahead
    cases hahead

end Grammar

end ScriptReplay
