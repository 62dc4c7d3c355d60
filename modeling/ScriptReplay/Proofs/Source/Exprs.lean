/-
The grammar of expressions places what it reads.

* `functionRest_meets` : functions, from their parameters on;
* `chunkExpr_parses` : embedded expressions, which are read from a text of their own;
* `primary_yields`, `callChain_yields`, `joined_yields` : operands, and operands joined
  by operators;
* `unary_yields`, `assignment_yields` : the two rules through which expressions nest.

Design notes: a rule that goes on from an expression already read is described by where that
expression starts; a rule that begins anew by where the next token starts.
-/
import ScriptReplay.Proofs.Source.Parsers
import ScriptReplay.Proofs.Source.Stages

namespace ScriptReplay.Grammar

open Parse

variable {text : List Char} {r : Rules} {s : Stream}

/-! ### Lists of things -/

theorem argumentItems_yields (hr : r.Place text) (n : Nat) (hs : s.Fits text) :
    Yields text s (argumentItems r n) := by
  induction n generalizing s with
  | zero => exact .pure hs lie_nil
  | succ n ih =>
    refine .atSymbol .rparen fun b _ => ?_
    cases b with
    | true => exact .pure hs lie_nil
    | false =>
      refine (hr.expr hs).bind fun e s₁ h₁ he => ?_
      exact commaItems_meets ih h₁.fits h₁.head_le he

theorem arguments_takes (hr : r.Place text) (hs : s.Fits text) : Takes text s (arguments r) :=
  bracketed_takes (argumentItems_yields hr) hs _ _ _ _

theorem optionalArguments_yields (hr : r.Place text) (hs : s.Fits text) :
    Yields text s (optionalArguments r) := by
  refine .atSymbol .lparen fun b _ => ?_
  cases b with
  | true => exact (arguments_takes hr hs).imp fun _ _ _ h => h.1
  | false => exact .pure hs lie_nil

theorem fallback_yields (hr : r.Place text) (hs : s.Fits text) :
    Yields text s (fallback r) := by
  refine (eatSymbol_meets hs .eq).bind fun b s₁ h₁ _ => ?_
  cases b with
  | true =>
    refine (hr.expr h₁.fits).bind fun e s₂ h₂ he => ?_
    exact .pure h₂.fits (lie_some.2 (he.behind h₁))
  | false => exact .pure h₁.fits lie_none

theorem parameterItems_yields (hr : r.Place text) (n : Nat) (hs : s.Fits text) :
    Yields text s (parameterItems r n) := by
  induction n generalizing s with
  | zero => exact .pure hs lie_nil
  | succ n ih =>
    refine .atSymbol .rparen fun b _ => ?_
    cases b with
    | true => exact .pure hs lie_nil
    | false =>
      refine (expectName_passes hs).bind fun name s₁ h₁ _ => ?_
      refine (fallback_yields hr h₁.fits).bind fun o s₂ h₂ ho => ?_
      have hparam : Lie text s.head.loc.start s₂.lastStop (⟨name, o⟩ : Param) := ho.behind h₁
      exact commaItems_meets ih h₂.fits (h₁.trans h₂).head_le hparam

theorem parameters_takes (hr : r.Place text) (hs : s.Fits text) :
    Takes text s (parameters r) :=
  bracketed_takes (parameterItems_yields hr) hs _ _ _ _

theorem blockItems_yields (hr : r.Place text) (n : Nat) (hs : s.Fits text) :
    Yields text s (blockItems r n) := by
  induction n generalizing s with
  | zero => exact .pure hs lie_nil
  | succ n ih =>
    refine .atSymbol .rbrace fun b _ => ?_
    refine .atEnd fun b' => ?_
    split
    · exact .pure hs lie_nil
    · exact items_yields (hr.stmt hs) ih

theorem block_takes (hr : r.Place text) (hs : s.Fits text) : Takes text s (block r) :=
  bracketed_takes (blockItems_yields hr) hs _ _ _ _

/-! ### Functions -/

/-- The locations of a function and of its body, once both are read. -/
theorem functionSpan_meets {α : Type} {Q : α → Stream → Prop}
    {make : Location → Location → Parse α} (hs : s.Fits text) {start bodyStart : Location}
    (hstart : start.Fits text) (hbodyStart : bodyStart.Fits text)
    (hle : start.start ≤ bodyStart.start) (hstop : bodyStart.start ≤ s.lastStop)
    {params : List Param} {mid : Nat} (hparams : Lie text start.start mid params)
    (hmid : mid ≤ bodyStart.start) {body : Body}
    (hbody : Lie text bodyStart.start s.lastStop body)
    (h : ∀ l l', (∀ f : Routine, f.loc = l → f.bodyLoc = l' → f.params = params →
      f.body = body → Lie text start.start s.lastStop f) → Meets text s Q (make l l')) :
    Meets text s Q
      (spanFrom start >>= fun l => spanFrom bodyStart >>= fun l' => make l l') := by
  refine .spanFrom hs hstart (Nat.le_trans hle hstop) fun l hl hbegin hend => ?_
  refine .spanFrom hs hbodyStart hstop fun l' hl' hbegin' hend' =>
    h l l' fun f hloc hbodyLoc hp hb => ?_
  subst hloc hbodyLoc hp hb
  rw [← hbegin] at hparams
  rw [← hbegin', ← hend'] at hbody
  rw [← hbegin'] at hmid
  exact Routine.lie_of_inner hl (Nat.le_of_eq hbegin.symm)
    (Nat.le_of_eq hend) hparams hmid hl' ⟨by omega, by omega⟩ hbody

theorem functionRest_meets (hr : r.Place text) (hs : s.Fits text) (name : Option String)
    (isAsync : Bool) {start : Location} (hstart : start.Fits text)
    (hle : start.start ≤ s.head.loc.start) :
    Meets text s (fun f s' => Lie text start.start s'.lastStop f)
      (functionRest r name isAsync start) := by
  refine (parameters_takes hr hs).bind fun params s₁ h₁ hparams => .here ?_
  refine (block_takes hr h₁.fits).bind fun body s₂ h₂ hbody => ?_
  have hbody' : Lie text s₁.head.loc.start s₂.lastStop (Body.block body) := hbody.1
  refine functionSpan_meets h₂.fits hstart h₁.fits.head.1.loc (Nat.le_trans hle h₁.head_le)
    hbody.2 (hparams.1.mono hle (Nat.le_refl _)) h₁.fits.head.2 hbody' fun l l' hf => ?_
  exact .pure h₂.fits (hf _ rfl rfl rfl rfl)

theorem functionExpr_lie {lo hi : Nat} {f : Routine} (h : Lie text lo hi f) :
    Lie text lo hi (functionExpr f) := by
  have hf := h.lies _ List.mem_cons_self
  refine Expr.lie_of_inner hf.placed.loc hf.lo_le hf.le_hi (row_singleton.2 ?_)
  exact ⟨hf.placed, Nat.le_refl _, Nat.le_refl _⟩

theorem optionalName_meets (hs : s.Fits text) :
    Meets text s (fun _ _ => True) optionalName := by
  refine .peek ?_
  split
  · exact (expectName_passes hs).bind fun _ _ h₁ _ => .pure h₁.fits trivial
  · exact .pure hs trivial

theorem functionLiteral_meets (hr : r.Place text) (hs : s.Fits text) (isAsync : Bool)
    {start : Location} (hstart : start.Fits text) (hle : start.start ≤ s.head.loc.start) :
    Meets text s (fun e s' => Lie text start.start s'.lastStop e)
      (functionLiteral r isAsync start) := by
  refine (expectKeyword_passes hs _ _).bind fun _ s₁ h₁ _ => ?_
  refine (optionalName_meets h₁.fits).bind fun name s₂ h₂ _ => ?_
  have hle₂ := Nat.le_trans hle (h₁.trans h₂).head_le
  refine (functionRest_meets hr h₂.fits name isAsync hstart hle₂).bind fun f s₃ h₃ hf => ?_
  exact .pure h₃.fits (functionExpr_lie hf)

theorem arrowParams_yields (hr : r.Place text) (hs : s.Fits text) :
    Yields text s (arrowParams r) := by
  refine .atSymbol .lparen fun b _ => ?_
  cases b with
  | true => exact (parameters_takes hr hs).imp fun _ _ _ h => h.1
  | false =>
    refine (expectName_passes hs).bind fun name s₁ h₁ _ => .pure h₁.fits ?_
    have hparam : Lie text s.head.loc.start s₁.lastStop (⟨name, none⟩ : Param) := row_nil
    exact hparam.singleton

theorem arrowBody_takes (hr : r.Place text) (hs : s.Fits text) :
    Takes text s (arrowBody r) := by
  refine .atSymbol .lbrace fun b _ => ?_
  cases b with
  | true => exact (block_takes hr hs).bind fun _ _ h₁ hbody => .pure h₁.fits hbody
  | false => exact (hr.expr hs).takes_expr.bind fun _ _ h₁ he => .pure h₁.fits he

theorem arrowRest_meets (hr : r.Place text) {s₁ : Stream} (hs : s.Fits text)
    (h₁ : s.Reaches s₁ text) (isAsync : Bool) :
    Meets text s₁ (fun e s' => Lie text s.head.loc.start s'.lastStop e)
      (arrowRest r isAsync s.head.loc) := by
  refine (arrowParams_yields hr h₁.fits).bind fun params s₂ h₂ hparams => ?_
  refine (expectSymbol_passes h₂.fits _ _).bind fun _ s₃ h₃ _ => .here ?_
  refine (arrowBody_takes hr h₃.fits).bind fun body s₄ h₄ hbody => ?_
  refine functionSpan_meets h₄.fits hs.head.1.loc h₃.fits.head.1.loc
    (h₁.trans (h₂.trans h₃)).head_le hbody.2 (hparams.behind h₁)
    (Nat.le_trans h₂.fits.head.2 h₃.head_le) hbody.1 fun l l' hf => ?_
  exact .pure h₄.fits (functionExpr_lie (hf _ rfl rfl rfl rfl))

theorem arrowFunction_yields (hr : r.Place text) (hs : s.Fits text) (isAsync : Bool) :
    Yields text s (arrowFunction r isAsync) := by
  refine .here ?_
  cases isAsync with
  | true => exact (skip_meets hs).bind fun _ s₁ h₁ _ => arrowRest_meets hr hs h₁ true
  | false => exact arrowRest_meets hr hs (.refl hs) false

/-! ### Primary expressions -/

theorem arrayItems_yields (hr : r.Place text) (n : Nat) (hs : s.Fits text) :
    Yields text s (arrayItems r n) := by
  induction n generalizing s with
  | zero => exact .pure hs lie_nil
  | succ n ih =>
    refine .atSymbol .rbracket fun b _ => ?_
    cases b with
    | true => exact .pure hs lie_nil
    | false =>
      refine (eatSymbol_meets hs .comma).bind fun b s₁ h₁ _ => ?_
      cases b with
      | true =>
        refine (ih h₁.fits).bind fun items s₂ h₂ hitems => .pure h₂.fits ?_
        exact (hitems.behind h₁ : Row text _ _ (fragments items))
      | false =>
        refine (hr.expr h₁.fits).bind fun e s₂ h₂ he => ?_
        exact commaItems_meets ih h₂.fits (h₁.trans h₂).head_le (lie_some.2 (he.behind h₁))

/-- A literal with its items between two symbols. -/
theorem literal_yields {α : Type} [Fragments α] {items : Nat → Parse α}
    {make : α → Location → Expr}
    (hitems : ∀ {s : Stream} (n : Nat), s.Fits text → Yields text s (items n))
    (hmake : ∀ a l, (make a l).loc = l) (hinner : ∀ a l, (make a l).inner = fragments a)
    (hs : s.Fits text) (hkind : s.head.kind ≠ .finish) (right : Symbol) (closing : String) :
    Yields text s (do
      let start ← here
      skip
      let a ← items ((← remaining) + 1)
      expectSymbol right closing
      return make a (← spanFrom start)) := by
  have hstart := hs.head.1.loc.start_le
  refine .here ((skip_passes hs hkind).bind fun _ s₁ h₁ hopen => .remaining ?_)
  refine (hitems _ h₁.fits).bind fun a s₂ h₂ ha => ?_
  refine (expectSymbol_passes h₂.fits _ _).bind fun _ s₃ h₃ _ => ?_
  have hle := (h₂.trans h₃).lastStop_le
  refine whole_meets (fun _ => rfl) (hmake a)
    (fun _ _ _ => trivial) hs (h₁.trans (h₂.trans h₃)) (by omega) fun l => ?_
  show Row text _ _ (make a l).inner
  rw [hinner]
  exact (ha.behind h₁).ahead h₃

theorem arrayLiteral_yields (hr : r.Place text) (hs : s.Fits text)
    (hkind : s.head.kind ≠ .finish) : Yields text s (arrayLiteral r) :=
  literal_yields (arrayItems_yields hr) (fun _ _ => rfl) (fun _ _ => rfl) hs hkind _ _

theorem propertyKey_passes (hs : s.Fits text) : Passes text s propertyKey := by
  refine .peek ?_
  split
  · next hkind =>
      refine (skip_passes hs (by simp [hkind])).bind fun _ _ h₁ hstop => ?_
      exact .pure h₁.fits hstop
  · next hkind =>
      refine (skip_passes hs (by simp [hkind])).bind fun _ _ h₁ hstop => ?_
      exact .pure h₁.fits hstop
  · refine (expectPropertyName_passes hs).bind fun _ _ h₁ hstop => ?_
    exact .pure h₁.fits hstop
  · refine (expectPropertyName_passes hs).bind fun _ _ h₁ hstop => ?_
    exact .pure h₁.fits hstop

/-- An expression without parts that stands where a token does. -/
theorem lie_leaf {e : Expr} (hinner : e.inner = []) {lo hi : Nat} (hloc : e.loc.Fits text)
    (hlo : lo ≤ e.loc.start) (hhi : e.loc.stop ≤ hi) : Lie text lo hi e := by
  refine Expr.lie_of_inner hloc hlo hhi ?_
  rw [hinner]
  exact row_nil

theorem property_yields (hr : r.Place text) (hs : s.Fits text) :
    Yields text s (property r) := by
  have hstart := hs.head.1.loc
  have hle := hstart.start_le
  refine .here ((propertyKey_passes hs).bind fun key s₁ h₁ hkey => ?_)
  have hdone : ∀ {s₂ : Stream} (value : Expr), s₁.Reaches s₂ text →
      Lie text s.head.loc.start s₂.lastStop value →
      Meets text s₂ (fun p s' => Lie text s.head.loc.start s'.lastStop p)
        (do return (⟨key.1, value, ← spanFrom s.head.loc⟩ : Property)) := by
    intro s₂ value h₂ hvalue
    have hstop := h₂.lastStop_le
    exact whole_meets (fun _ => rfl) (fun _ => rfl)
      (fun _ _ _ => trivial) hs (h₁.trans h₂) (by omega) fun _ => hvalue
  refine .atSymbol .lparen fun b _ => ?_
  refine (eatSymbol_meets h₁.fits .colon).bind fun b' s₂ h₂ _ => ?_
  cases b with
  | true =>
    have hmethod : Meets text s₂ (fun e s' => Lie text s.head.loc.start s'.lastStop e)
        (functionExpr <$> functionRest r (some key.1) false s.head.loc) :=
      (functionRest_meets hr h₂.fits _ _ hstart (h₁.trans h₂).head_le).map fun _ _ _ hf =>
        functionExpr_lie hf
    refine hmethod.bind fun value s₃ h₃ hvalue => ?_
    exact hdone value (h₂.trans h₃) hvalue
  | false =>
    cases b' with
    | true =>
      refine (hr.expr h₂.fits).bind fun value s₃ h₃ hvalue => ?_
      refine hdone value (h₂.trans h₃) ?_
      exact hvalue.behind (h₁.trans h₂)
    | false =>
      have hstop := h₂.lastStop_le
      obtain ⟨name, alone⟩ := key
      cases alone with
      | true =>
        exact hdone (.ident name s.head.loc) h₂
          (lie_leaf rfl hstart (Nat.le_refl _) (Nat.le_trans hkey hstop))
      | false =>
        refine (unexpected_meets (Q := fun _ _ => False) h₂.fits).bind fun _ _ _ h => ?_
        exact h.elim

theorem propertyItems_yields (hr : r.Place text) (n : Nat) (hs : s.Fits text) :
    Yields text s (propertyItems r n) := by
  induction n generalizing s with
  | zero => exact .pure hs lie_nil
  | succ n ih =>
    refine .atSymbol .rbrace fun b _ => ?_
    cases b with
    | true => exact .pure hs lie_nil
    | false =>
      refine (property_yields hr hs).bind fun p s₁ h₁ hp => ?_
      exact commaItems_meets ih h₁.fits h₁.head_le hp

theorem objectLiteral_yields (hr : r.Place text) (hs : s.Fits text)
    (hkind : s.head.kind ≠ .finish) : Yields text s (objectLiteral r) :=
  literal_yields (propertyItems_yields hr) (fun _ _ => rfl) (fun _ _ => rfl) hs hkind _ _

/-- An expression that is one token, with all that is inside it. -/
theorem single_yields (hs : s.Fits text) (h : s.head.kind ≠ .finish) {e : Expr}
    (hloc : e.loc = s.head.loc) (hinner : Row text s.head.loc.start s.head.loc.stop e.inner) :
    Yields text s (single e) := by
  refine (skip_passes hs h).bind fun _ s₁ h₁ hstop => .pure h₁.fits ?_
  rw [← hloc] at hinner hstop ⊢
  exact Expr.lie_of_inner (hloc ▸ hs.head.1.loc) (Nat.le_refl _) hstop hinner

/-! ### Templates -/

/-- An embedded expression is read from a text of its own, which is a stretch of
the whole one. -/
theorem chunkExpr_parses (hr : r.Place text) {chunk : Chunk} {lo hi : Nat}
    (hc : chunk.Fits text lo hi) : Parses text (Lie text lo hi) (chunkExpr r chunk) := by
  obtain ⟨⟨tail, hplace⟩, hstop⟩ := hc
  have htokens := tokensFrom_reads hplace
  have hlength := hplace.offset_eq
  unfold chunkExpr tokenizeAt
  cases hts : tokensFrom (Cursor.ofText chunk.source chunk.origin.position) with
  | error e =>
    rw [hts] at htokens
    exact htokens
  | ok ts =>
    rw [hts] at htokens
    obtain ⟨hfit, hend⟩ := htokens
    have hs : (Stream.ofTokens ts).Fits text := hfit.mono (Nat.zero_le _)
    have hlo : lo ≤ (Stream.ofTokens ts).head.loc.start := by
      have hfrom : Stream.Fits ⟨ts.body, ts.final, lo, ts.body.length, rfl⟩ text := hfit
      exact hfrom.head.2
    have hwhole : Yields text (Stream.ofTokens ts) (whole r.expr) := by
      refine (hr.expr hs).bind fun e s₁ h₁ he => ?_
      refine .atEnd fun b => ?_
      cases b with
      | true => exact .pure h₁.fits he
      | false => exact unexpected_meets h₁.fits
    refine Parses.imp hwhole.run fun e ⟨s₁, h₁, he⟩ => he.mono hlo ?_
    have hlast : s₁.lastStop ≤ ts.final.loc.stop := by
      have hle := h₁.fits.lastStop_le_final
      rwa [h₁.final_eq] at hle
    -- The text of the chunk ends where what is behind it begins.
    have hchunk : chunk.origin.start +
        (chunk.source.toList.length + tail.length) = text.length :=
      hlength
    omega

/-- So are all the embedded expressions of a template, one after another. -/
theorem chunkExprs_parses (hr : r.Place text) {chunks : List Chunk} {lo hi : Nat}
    (hc : ∀ chunk ∈ chunks, chunk.Fits text lo hi) (hapart : chunks.Pairwise Chunk.Before) :
    Parses text (Lie text lo hi) (chunks.mapM (chunkExpr r)) := by
  induction chunks generalizing lo with
  | nil => exact lie_nil
  | cons chunk chunks ih =>
    rw [List.mapM_cons]
    obtain ⟨hbefore, hapart⟩ := List.pairwise_cons.1 hapart
    have hchunk := hc chunk List.mem_cons_self
    have hfirst := chunkExpr_parses hr (hchunk.upTo (Nat.le_refl _))
    have hrest :=
      ih (fun c hmem => (hc c (List.mem_cons_of_mem _ hmem)).from (hbefore c hmem)) hapart
    cases hx : chunkExpr r chunk with
    | error e =>
      rw [hx] at hfirst
      exact hfirst
    | ok e =>
      rw [hx] at hfirst
      cases hxs : chunks.mapM (chunkExpr r) with
      | error e' =>
        rw [hxs] at hrest
        exact hrest
      | ok es =>
        rw [hxs] at hrest
        have hlo := hchunk.lo_le
        exact Row.append hfirst hrest (Nat.le_refl _) (by omega) hchunk.stop_le

theorem primary_yields (hr : r.Place text) (hs : s.Fits text) :
    Yields text s (primary r) := by
  obtain ⟨hloc, hchunks, -⟩ := hs.head.1
  refine .here (.peek ?_)
  have hleaf : ∀ e : Expr, s.head.kind ≠ .finish → e.loc = s.head.loc → e.inner = [] →
      Yields text s (single e) :=
    fun e hkind he hinner => single_yields hs hkind he (hinner ▸ row_nil)
  split
  · next hkind => exact hleaf _ (by simp [hkind]) rfl rfl
  · next hkind => exact hleaf _ (by simp [hkind]) rfl rfl
  · next texts chunks hkind =>
    rw [hkind] at hchunks
    refine (Meets.lift hs (chunkExprs_parses hr hchunks.chunk hchunks.apart)).bind ?_
    rintro parts _ _ ⟨hparts, rfl⟩
    exact single_yields hs (by simp [hkind]) rfl hparts
  · next hkind => exact hleaf _ (by simp [hkind]) rfl rfl
  · next hkind => exact hleaf _ (by simp [hkind]) rfl rfl
  · next hkind => exact hleaf _ (by simp [hkind]) rfl rfl
  · next hkind => exact hleaf _ (by simp [hkind]) rfl rfl
  · exact functionLiteral_meets hr hs false hloc (Nat.le_refl _)
  · next n hkind =>
    refine .look ?_
    split
    · refine (skip_meets hs).bind fun _ s₁ h₁ _ => ?_
      exact functionLiteral_meets hr h₁.fits true hloc h₁.head_le
    · exact hleaf _ (by simp [hkind]) rfl rfl
  · refine (skip_meets hs).bind fun _ s₁ h₁ _ => ?_
    refine (hr.expr h₁.fits).bind fun e s₂ h₂ he => ?_
    refine (expectSymbol_passes h₂.fits _ _).bind fun _ s₃ h₃ _ => ?_
    exact .pure h₃.fits ((he.behind h₁).ahead h₃)
  · next hkind => exact arrayLiteral_yields hr hs (by simp [hkind])
  · next hkind => exact objectLiteral_yields hr hs (by simp [hkind])
  · exact unexpected_meets hs

/-! ### Members and calls -/

theorem accessKey?_yields (hr : r.Place text) (hs : s.Fits text) :
    Yields text s (accessKey? r) := by
  refine (eatSymbol_meets hs .dot).bind fun b s₁ h₁ _ => ?_
  cases b with
  | true =>
    refine (expectPropertyName_passes h₁.fits).bind fun name s₂ h₂ _ => ?_
    refine .pure h₂.fits ?_
    exact lie_some.2 row_nil
  | false =>
    refine (eatSymbol_meets h₁.fits .lbracket).bind fun b s₂ h₂ _ => ?_
    cases b with
    | true =>
      refine (hr.expr h₂.fits).bind fun e s₃ h₃ he => ?_
      refine (expectSymbol_passes h₃.fits _ _).bind fun _ s₄ h₄ _ => ?_
      refine .pure h₄.fits ?_
      have hkey : Lie text s.head.loc.start s₄.lastStop (Key.computed e) :=
        (he.behind (h₁.trans h₂)).ahead h₄
      exact lie_some.2 hkey
    | false => exact .pure h₂.fits lie_none

/-- What is read behind an expression starts where it stops, or later. -/
theorem stop_le_head {e : Expr} {lo : Nat} (hs : s.Fits text)
    (he : Lie text lo s.lastStop e) : e.loc.stop ≤ s.head.loc.start :=
  Nat.le_trans he.expr.2.2 hs.head.2

/-- A placed expression by itself. -/
theorem row_expr {e : Expr} {lo hi : Nat} (he : Lie text lo hi e) :
    Row text e.loc.start e.loc.stop (fragments e) :=
  Expr.lie_iff.2 ⟨(Expr.lie_iff.1 he).placed, Nat.le_refl _, Nat.le_refl _⟩

/-- An expression with something behind it. -/
theorem suffixed_meets {α : Type} {Q : α → Stream → Prop} {f : Location → Parse α}
    {lo mid : Nat} {e : Expr} (m : Location → Expr) {behind : List Fragment}
    (hmake : ∀ l, (m l).loc = l) (hinner : ∀ l, (m l).inner = fragments e ++ behind)
    (hs : s.Fits text) (he : Lie text lo s.lastStop e) (hmid : e.loc.stop ≤ mid)
    (hbehind : Row text mid s.lastStop behind)
    (h : ∀ l, Lie text lo s.lastStop (m l) → Meets text s Q (f l)) :
    Meets text s Q (spanFrom e.loc >>= f) := by
  obtain ⟨hloc, hlo, hstop⟩ := he.expr
  refine span_meets m (fun _ => rfl) hmake (fun _ _ _ => trivial) hs hloc
    (Nat.le_trans hloc.start_le hstop) (fun l => ?_) fun l hl =>
    h l (hl.mono hlo (Nat.le_refl _))
  show Row text _ _ (m l).inner
  rw [hinner]
  exact (row_expr he).append hbehind hmid (Nat.le_trans hloc.start_le hmid) hstop

theorem members_meets (hr : r.Place text) (n : Nat) {lo : Nat} {e : Expr} (hs : s.Fits text)
    (he : Lie text lo s.lastStop e) :
    Meets text s (fun e' s' => Lie text lo s'.lastStop e') (members r n e) := by
  induction n generalizing s e with
  | zero => exact .pure hs he
  | succ n ih =>
    refine (accessKey?_yields hr hs).bind fun o s₁ h₁ ho => ?_
    have he₁ := he.ahead h₁
    cases o with
    | none => exact .pure h₁.fits he₁
    | some key =>
      have hmid := stop_le_head hs he
      exact suffixed_meets (.member e key) (fun _ => rfl)
        (fun _ => rfl) h₁.fits he₁ hmid (lie_some.1 ho) fun l hl =>
        ih h₁.fits hl

/-- `s₁` is the stream behind the word that opens the construction. -/
theorem constructionRest_meets (hr : r.Place text) {s₁ s₂ : Stream} {head : Expr}
    (hs : s.Fits text) (h₁ : s.Reaches s₁ text) (hnew : s.head.loc.stop ≤ s₁.lastStop)
    (h₂ : s₁.Reaches s₂ text) (hhead : Lie text s₁.head.loc.start s₂.lastStop head) :
    Meets text s₂ (fun e s' => Lie text s.head.loc.start s'.lastStop e)
      (constructionRest r s.head.loc head) := by
  refine .remaining
    ((members_meets hr _ h₂.fits (hhead.behind h₁)).bind fun callee s₃ h₃ hcallee => ?_)
  refine (optionalArguments_yields hr h₃.fits).bind fun args s₄ h₄ hargs => ?_
  have hstart := hs.head.1.loc.start_le
  have hstop := (h₂.trans (h₃.trans h₄)).lastStop_le
  refine whole_meets (fun _ => rfl) (fun _ => rfl)
    (fun _ _ _ => trivial) hs (h₁.trans (h₂.trans (h₃.trans h₄))) (by omega) fun _ => ?_
  exact Row.andThen hcallee h₃.fits (h₁.trans (h₂.trans h₃)).head_le h₄ hargs

theorem construction_yields (hr : r.Place text) (n : Nat) (hs : s.Fits text)
    (hkind : s.head.kind ≠ .finish) : Yields text s (construction r n) := by
  induction n generalizing s with
  | zero => exact unexpected_meets hs
  | succ n ih =>
    refine .here
      ((skip_passes hs hkind).bind fun _ s₁ h₁ hnew => .atKeyword .newKw fun b hb => ?_)
    cases b with
    | true =>
      refine (ih h₁.fits (TokenKind.ne_finish_of_isKeyword hb)).bind
        fun head s₂ h₂ hhead => ?_
      exact constructionRest_meets hr hs h₁ hnew h₂ hhead
    | false =>
      refine (primary_yields hr h₁.fits).bind fun head s₂ h₂ hhead => ?_
      exact constructionRest_meets hr hs h₁ hnew h₂ hhead

theorem calls_meets (hr : r.Place text) (n : Nat) {lo : Nat} {e : Expr} (hs : s.Fits text)
    (he : Lie text lo s.lastStop e) :
    Meets text s (fun e' s' => Lie text lo s'.lastStop e') (calls r n e) := by
  induction n generalizing s e with
  | zero => exact .pure hs he
  | succ n ih =>
    refine (accessKey?_yields hr hs).bind fun o s₁ h₁ ho => ?_
    have he₁ := he.ahead h₁
    cases o with
    | some key =>
      have hmid := stop_le_head hs he
      exact suffixed_meets (.member e key) (fun _ => rfl)
        (fun _ => rfl) h₁.fits he₁ hmid (lie_some.1 ho) fun l hl =>
        ih h₁.fits hl
    | none =>
      refine .atSymbol .lparen fun b _ => ?_
      cases b with
      | true =>
        refine (arguments_takes hr h₁.fits).bind fun args s₂ h₂ hargs => ?_
        have hmid := stop_le_head h₁.fits he₁
        exact suffixed_meets (.call e args) (fun _ => rfl)
          (fun _ => rfl) h₂.fits (he₁.ahead h₂) hmid hargs.1
          fun l hl => ih h₂.fits hl
      | false => exact .pure h₁.fits he₁

theorem callChain_yields (hr : r.Place text) (hs : s.Fits text) :
    Yields text s (callChain r) := by
  have hrest : ∀ {s₁ : Stream} (head : Expr), s.Reaches s₁ text →
      Lie text s.head.loc.start s₁.lastStop head →
      Meets text s₁ (fun e s' => Lie text s.head.loc.start s'.lastStop e)
        (do calls r (← remaining) head) :=
    fun head h₁ hhead => .remaining (calls_meets hr _ h₁.fits hhead)
  refine .atKeyword .newKw fun b hb => ?_
  cases b with
  | true =>
    refine .remaining
      ((construction_yields hr _ hs (TokenKind.ne_finish_of_isKeyword hb)).bind ?_)
    exact fun head s₁ h₁ hhead => hrest head h₁ hhead
  | false =>
    refine (primary_yields hr hs).bind fun head s₁ h₁ hhead => ?_
    exact hrest head h₁ hhead

/-! ### Operators -/

theorem toExpr_of_target? {e : Expr} {t : Target} (h : e.target? = some t) :
    t.toExpr = e := by
  cases e <;> cases h <;> rfl

theorem updateTarget_meets {lo : Nat} {e : Expr} (hs : s.Fits text)
    (he : Lie text lo s.lastStop e) :
    Meets text s (fun t s' => t.toExpr = e ∧ s' = s) (updateTarget e) := by
  unfold updateTarget
  split
  · next t ht => exact .pure hs ⟨toExpr_of_target? ht, rfl⟩
  · exact .failAt he.expr.1

theorem counted_yields (hr : r.Place text) (hs : s.Fits text) :
    Yields text s (counted r) := by
  refine (callChain_yields hr hs).bind fun e s₁ h₁ he => .peek ?_
  split
  · next op _ =>
    refine (updateTarget_meets h₁.fits he).bind ?_
    rintro target _ - ⟨htarget, rfl⟩
    refine (skip_meets h₁.fits).bind fun _ s₂ h₂ _ => ?_
    have hinner : ∀ l, (Expr.update op false target l).inner = fragments e ++ [] := by
      intro l
      rw [← htarget]
      rfl
    exact suffixed_meets (.update op false target)
      (fun _ => rfl) hinner h₂.fits (he.ahead h₂) (Nat.le_refl _) row_nil
      fun _ hl => .pure h₂.fits hl
  · exact .pure h₁.fits he

/-- An expression behind a token. -/
theorem lie_prefixed {t : Token} {e f : Expr} {lo hi : Nat} (ht : t.loc.Fits text)
    (he : Lie text lo hi e) (hle : t.loc.stop ≤ lo) (hloc : f.loc = t.loc.through e.loc)
    (hinner : f.inner = fragments e) : Lie text t.loc.start hi f := by
  obtain ⟨hfits, hlo, hhi⟩ := he.expr
  obtain ⟨hthrough, hbegin, hend⟩ := ht.through hfits (Nat.le_trans hle hlo)
  have htoken := ht.start_le
  rw [← hloc] at hthrough hbegin hend
  refine Expr.lie_of_inner hthrough (Nat.le_of_eq hbegin.symm) (by omega) ?_
  rw [hinner, hbegin, hend]
  exact (row_expr he).mono (by omega) (Nat.le_refl _)

theorem unaryOp?_finish : unaryOp? .finish = none := rfl

theorem updateOp?_finish : updateOp? .finish = none := rfl

theorem unary_yields (hr : r.Place text) (hs : s.Fits text) : Yields text s (unary r) := by
  have hloc := hs.head.1.loc
  -- The operand behind a token that was passed.
  have hoperand : ∀ {s₁ : Stream}, s.Reaches s₁ text → s.head.loc.stop ≤ s₁.lastStop →
      Meets text s₁ (fun e s' => Lie text s₁.head.loc.start s'.lastStop e ∧
        s.head.loc.stop ≤ s₁.head.loc.start)
        r.unary := by
    intro s₁ h₁ hstop
    exact (hr.unary h₁.fits).imp fun e s' _ he => ⟨he, Nat.le_trans hstop h₁.fits.head.2⟩
  refine .peek ?_
  split
  · next op hop =>
    have hkind : s.head.kind ≠ .finish := fun h => by simp [h, unaryOp?_finish] at hop
    refine (skip_passes hs hkind).bind fun _ s₁ h₁ hstop => ?_
    refine (hoperand h₁ hstop).bind fun e s₂ h₂ he => .pure h₂.fits ?_
    exact lie_prefixed hloc he.1 he.2 rfl rfl
  · next op _ hop =>
    have hkind : s.head.kind ≠ .finish := fun h => by simp [h, updateOp?_finish] at hop
    refine (skip_passes hs hkind).bind fun _ s₁ h₁ hstop => ?_
    refine (hoperand h₁ hstop).bind fun e s₂ h₂ he => ?_
    refine (updateTarget_meets h₂.fits he.1).bind ?_
    rintro target _ - ⟨htarget, rfl⟩
    refine .pure h₂.fits (lie_prefixed (f := .update op true target _) hloc he.1 he.2 rfl ?_)
    rw [← htarget]
    rfl
  · refine (eatKeyword_meets hs .awaitKw).bind fun b s₁ h₁ hstop => ?_
    cases b with
    | true =>
      refine (hoperand h₁ (hstop rfl)).bind fun e s₂ h₂ he => .pure h₂.fits ?_
      exact lie_prefixed hloc he.1 he.2 rfl rfl
    | false => exact (counted_yields hr h₁.fits).imp fun e s' _ he => he.behind h₁

/-- Two expressions joined by what stands between them. -/
theorem lie_enclosing {e e' f : Expr} {between : List Fragment} {lo mid mid' hi : Nat}
    (he : Lie text lo mid e) (he' : Lie text mid' hi e') (hle : mid ≤ mid')
    (hbetween : Row text mid mid' between) (hloc : f.loc = e.loc.through e'.loc)
    (hinner : f.inner = fragments e ++ (between ++ fragments e')) : Lie text lo hi f := by
  obtain ⟨hfits, hlo, hmid⟩ := he.expr
  obtain ⟨hfits', hmid', hhi⟩ := he'.expr
  have hstart := hfits.start_le
  have hstart' := hfits'.start_le
  obtain ⟨hthrough, hbegin, hend⟩ := hfits.through hfits' (by omega)
  rw [← hloc] at hthrough hbegin hend
  refine Expr.lie_of_inner hthrough (by omega) (by omega) ?_
  rw [hinner, hbegin, hend]
  have hrest : Row text mid e'.loc.stop (between ++ fragments e') :=
    hbetween.append (row_expr he') hmid' (by omega) (by omega)
  exact (row_expr he).append hrest hmid (by omega) (by omega)

theorem lie_joined {e e' f : Expr} {lo mid mid' hi : Nat} (he : Lie text lo mid e)
    (he' : Lie text mid' hi e') (hle : mid ≤ mid') (hloc : f.loc = e.loc.through e'.loc)
    (hinner : f.inner = fragments e ++ fragments e') : Lie text lo hi f :=
  lie_enclosing he he' hle row_nil hloc hinner

theorem powers_yields (hr : r.Place text) (n : Nat) (hs : s.Fits text) :
    Yields text s (powers r n) := by
  induction n generalizing s with
  | zero => exact unary_yields hr hs
  | succ n ih =>
    refine (unary_yields hr hs).bind fun base s₁ h₁ hbase => ?_
    refine (eatSymbol_meets h₁.fits .starStar).bind fun b s₂ h₂ _ => ?_
    cases b with
    | true =>
      refine (ih h₂.fits).bind fun exponent s₃ h₃ hexponent => .pure h₃.fits ?_
      exact lie_joined (hbase.ahead h₂) hexponent h₂.fits.head.2 rfl rfl
    | false => exact .pure h₂.fits (hbase.ahead h₂)

theorem tierRest_meets {operand : Parse Expr}
    (hoperand : ∀ {s : Stream}, s.Fits text → Yields text s operand) (t : Tier) (n : Nat)
    {lo : Nat} {l : Expr} (hs : s.Fits text) (hl : Lie text lo s.lastStop l) :
    Meets text s (fun e s' => Lie text lo s'.lastStop e) (tierRest t operand n l) := by
  induction n generalizing s l with
  | zero => exact .pure hs hl
  | succ n ih =>
    refine .peek ?_
    split
    · next j _ =>
      refine (skip_meets hs).bind fun _ s₁ h₁ _ => ?_
      refine (hoperand h₁.fits).bind fun e s₂ h₂ he => ih h₂.fits ?_
      cases j with
      | _ => exact lie_joined (hl.ahead h₁) he h₁.fits.head.2 rfl rfl
    · exact .pure hs hl

theorem layered_yields {operand : Parse Expr}
    (hoperand : ∀ {s : Stream}, s.Fits text → Yields text s operand) (tiers : List Tier)
    (hs : s.Fits text) : Yields text s (layered operand tiers) := by
  induction tiers generalizing s with
  | nil => exact hoperand hs
  | cons t tighter ih =>
    refine (ih hs).bind fun first s₁ h₁ hfirst => ?_
    exact .remaining (tierRest_meets ih t _ h₁.fits hfirst)

theorem joined_yields (hr : r.Place text) (hs : s.Fits text) : Yields text s (joined r) :=
  .remaining (layered_yields (powers_yields hr _) tiers hs)

theorem conditional_yields (hr : r.Place text) (hs : s.Fits text) :
    Yields text s (conditional r) := by
  refine (joined_yields hr hs).bind fun test s₁ h₁ htest => ?_
  refine (eatSymbol_meets h₁.fits .query).bind fun b s₂ h₂ _ => ?_
  cases b with
  | false => exact .pure h₂.fits (htest.ahead h₂)
  | true =>
    refine (hr.expr h₂.fits).bind fun yes s₃ h₃ hyes => ?_
    refine (expectSymbol_passes h₃.fits _ _).bind fun _ s₄ h₄ _ => ?_
    refine (hr.expr h₄.fits).bind fun no s₅ h₅ hno => .pure h₅.fits ?_
    have hle := Nat.le_trans h₂.fits.head.2 (h₃.trans h₄).head_le
    have hbetween := hyes.mono h₂.fits.head.2 (Nat.le_trans h₄.lastStop_le h₄.fits.head.2)
    exact lie_enclosing (htest.ahead h₂) hno hle hbetween rfl rfl

/-! ### Assignment -/

theorem assignment_yields (hr : r.Place text) (hs : s.Fits text) :
    Yields text s (assignment r) := by
  refine .look ?_
  split
  · next isAsync _ => exact arrowFunction_yields hr hs isAsync
  refine (conditional_yields hr hs).bind fun left s₁ h₁ hleft => .peek ?_
  split
  · exact .pure h₁.fits hleft
  split
  · exact .failAt hleft.expr.1
  · next op _ _ target htarget =>
    refine (skip_meets h₁.fits).bind fun _ s₂ h₂ _ => ?_
    refine (hr.expr h₂.fits).bind fun value s₃ h₃ hvalue => .pure h₃.fits ?_
    refine lie_joined (f := .assign op target value (left.loc.through value.loc))
      (hleft.ahead h₂) hvalue h₂.fits.head.2 rfl ?_
    rw [← toExpr_of_target? htarget]
    rfl

end ScriptReplay.Grammar
