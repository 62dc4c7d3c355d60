/-
Operators between names.

A row of names with operators between them is read as a tree.  The operator that is applied
last is one of the loosest level: the last of these, or the first if the level groups to the
right.  What stands before it and behind it are rows again.

* `Joint.level` : the levels of the operators, the loosest first;
* `Links` : operators, each with the name behind it;
* `Links.root?` : the operator that is applied last;
* `grouped` : the tree of a row;
* `powers_grouped`, `layered_grouped` : a rule of the grammar reads the operators of its level
  and of all tighter ones;
* `parseProgram_row` : so a row of any length is read as its tree.

Design notes: a rule reads from a row as much as its levels allow.  What it leaves begins with
a looser operator, which is where the rule above it goes on.
-/
import Mathlib.Data.List.TakeWhile
import ScriptReplay.Proofs.Source.Roundtrip
import ScriptReplay.Proofs.Source.Rereading.Ends
import ScriptReplay.Proofs.Source.Spaced

namespace ScriptReplay

namespace Grammar

/-! ### Levels -/

/-- The operator as a token. -/
def Joint.symbol : Joint → Symbol
  | binary op => op.symbol
  | logical op => op.symbol

/-- The operator as written. -/
def Joint.text : Joint → String
  | binary op => op.text
  | logical op => op.text

/-- The level of the operator.  Operators of the loosest level are applied last. -/
def Joint.level : Joint → Nat
  | logical .or | logical .nullish => 0
  | logical .and => 1
  | binary .bitOr => 2
  | binary .bitXor => 3
  | binary .bitAnd => 4
  | binary .looseEq | binary .strictEq | binary .looseNe | binary .strictNe => 5
  | binary .lt | binary .gt | binary .le | binary .ge => 6
  | binary .shl | binary .shr | binary .ushr => 7
  | binary .add | binary .sub => 8
  | binary .mul | binary .div | binary .rem => 9
  | binary .pow => 10

/-- Whether the operators of this level group to the right. -/
def groupsRight (level : Nat) : Bool :=
  level == 10

/-- Whether the operator is applied later than one that stands further right. -/
def Joint.outlasts (j k : Joint) : Bool :=
  j.level < k.level || (j.level == k.level && groupsRight j.level)

theorem Joint.text_symbol (j : Joint) : j.symbol.text = j.text := by
  cases j with
  | binary op => cases op <;> rfl
  | logical op => cases op <;> rfl

theorem Joint.level_le (j : Joint) : j.level ≤ 10 := by
  cases j with
  | binary op => cases op <;> decide
  | logical op => cases op <;> decide

theorem Joint.outlasts_eq_true {j k : Joint} :
    j.outlasts k = true ↔ j.level < k.level ∨ j.level = 10 ∧ k.level = 10 := by
  simp only [outlasts, groupsRight, Bool.or_eq_true, decide_eq_true_eq,
    Bool.and_eq_true, beq_iff_eq]
  omega

/-! ### Rows -/

/-- Operators, each with the name behind it. -/
abbrev Links := List (Joint × String)

/-- The operator that is applied last, with the links before it, the name behind it, and the
links behind that. -/
def Links.root? : Links → Option (Links × (Joint × String) × Links)
  | [] => none
  | link :: rest =>
    match Links.root? rest with
    | some (before, root, behind) =>
      if link.1.outlasts root.1 then some ([], link, rest)
        else some (link :: before, root, behind)
    | none => some ([], link, rest)

theorem Links.eq_of_root? {links before behind : Links} {root : Joint × String}
    (h : Links.root? links = some (before, root, behind)) :
    links = before ++ root :: behind := by
  induction links generalizing before root behind with
  | nil => cases h
  | cons link rest ih =>
    unfold Links.root? at h
    split at h
    · next hroot =>
      split at h
      · cases h
        rfl
      · cases h
        rw [ih hroot, List.cons_append]
    · cases h
      rfl

theorem Links.eq_nil_of_root? {links : Links} (h : Links.root? links = none) :
    links = [] := by
  cases links with
  | nil => rfl
  | cons link rest =>
    unfold Links.root? at h
    split at h
    · split at h <;> cases h
    · cases h

/-- The tree of a row that begins with the name. -/
def grouped (name : String) (links : Links) : Expr :=
  match _ : Links.root? links with
  | none => .ident name default
  | some (before, (j, behindName), behind) =>
    j.join (grouped name before) (grouped behindName behind)
termination_by links.length
decreasing_by
  all_goals
    have hlength := congrArg List.length (Links.eq_of_root? ‹_›)
    simp only [List.length_append, List.length_cons] at hlength
    omega

@[simp] theorem grouped_nil (name : String) : grouped name [] = .ident name default := by
  rw [grouped]
  rfl

/-- The root outlasts all operators further right, and none further left outlasts it. -/
theorem Links.outlasts_of_root? {links before behind : Links} {root : Joint × String}
    (h : Links.root? links = some (before, root, behind)) :
    (∀ l ∈ before, l.1.outlasts root.1 = false) ∧ ∀ l ∈ behind,
      root.1.outlasts l.1 = true := by
  induction links generalizing before root behind with
  | nil => cases h
  | cons link rest ih =>
    unfold Links.root? at h
    split at h
    · next before' root' behind' hroot =>
      obtain ⟨hbefore, hbehind⟩ := ih hroot
      split at h
      · next hlink =>
        cases h
        refine ⟨List.forall_mem_nil _, fun l hl => ?_⟩
        -- The first operator outlasts the root of the rest, and nothing in the rest is looser
        -- than that.
        rw [Links.eq_of_root? hroot, List.mem_append, List.mem_cons] at hl
        rw [Joint.outlasts_eq_true] at hlink ⊢
        obtain hl | rfl | hl := hl
        · have hfirst := hbefore l hl
          rw [Bool.eq_false_iff, Ne, Joint.outlasts_eq_true] at hfirst
          omega
        · exact hlink
        · have hlast := Joint.outlasts_eq_true.1 (hbehind l hl)
          omega
      · next hlink =>
        cases h
        exact ⟨List.forall_mem_cons.2 ⟨Bool.eq_false_iff.2 hlink, hbefore⟩, hbehind⟩
    · next hroot =>
      cases h
      rw [Links.eq_nil_of_root? hroot]
      exact ⟨List.forall_mem_nil _, List.forall_mem_nil _⟩

/-- There is one such root only. -/
theorem Links.root?_append {before behind : Links} {link : Joint × String}
    (hbefore : ∀ l ∈ before, l.1.outlasts link.1 = false)
    (hbehind : ∀ l ∈ behind, link.1.outlasts l.1 = true) :
    Links.root? (before ++ link :: behind) = some (before, link, behind) := by
  induction before with
  | nil =>
    rw [List.nil_append, Links.root?]
    split
    · -- The rest has a root of its own, which this link outlasts too.
      next before' root behind' hroot =>
      have hmem : root ∈ behind := by
        rw [Links.eq_of_root? hroot]
        exact List.mem_append_right _ List.mem_cons_self
      rw [if_pos (hbehind root hmem)]
    · rfl
  | cons l before ih =>
    have hrest := ih fun l' hl' => hbefore l' (List.mem_cons_of_mem l hl')
    rw [List.cons_append, Links.root?, hrest]
    dsimp only
    rw [hbefore l List.mem_cons_self, if_neg Bool.false_ne_true]

theorem Links.root?_eq_some {links before behind : Links} {root : Joint × String} :
    Links.root? links = some (before, root, behind) ↔ links = before ++ root :: behind ∧
      (∀ l ∈ before, l.1.outlasts root.1 = false) ∧ ∀ l ∈ behind,
        root.1.outlasts l.1 = true := by
  refine ⟨fun h => ⟨Links.eq_of_root? h, Links.outlasts_of_root? h⟩, ?_⟩
  rintro ⟨rfl, hbefore, hbehind⟩
  exact Links.root?_append hbefore hbehind

/-- A row is grouped around such an operator. -/
theorem grouped_append (name : String) {before behind : Links} {j : Joint}
    {behindName : String} (hbefore : ∀ l ∈ before, l.1.outlasts j = false)
    (hbehind : ∀ l ∈ behind, j.outlasts l.1 = true) :
    grouped name (before ++ (j, behindName) :: behind) =
      j.join (grouped name before) (grouped behindName behind) := by
  have hroot : Links.root? (before ++ (j, behindName) :: behind) =
      some (before, (j, behindName), behind) :=
    Links.root?_eq_some.2 ⟨rfl, hbefore, hbehind⟩
  rw [grouped]
  split
  · next h =>
    rw [hroot] at h
    cases h
  · next h =>
    rw [hroot] at h
    cases h
    rfl

-- Differences group to the left, and powers to the right.
example :
    grouped "a"
      [(.binary .sub, "b"), (.binary .pow, "c"), (.binary .pow, "d"), (.binary .sub, "e")] =
    .binary .sub
      (.binary .sub (.ident "a" default)
        (.binary .pow (.ident "b" default)
          (.binary .pow (.ident "c" default) (.ident "d" default) default) default)
        default)
      (.ident "e" default) default := by
  cbv

/-! ### What a level reads -/

/-- The links up to the first operator that is looser than the level. -/
def Links.upTo (level : Nat) (links : Links) : Links :=
  links.takeWhile fun l => level ≤ l.1.level

/-- The links from the first operator on that is looser than the level. -/
def Links.beyond (level : Nat) (links : Links) : Links :=
  links.dropWhile fun l => level ≤ l.1.level

@[simp] theorem Links.upTo_nil (level : Nat) : Links.upTo level [] = [] := rfl

@[simp] theorem Links.beyond_nil (level : Nat) : Links.beyond level [] = [] := rfl

theorem Links.upTo_cons_of_le {level : Nat} {l : Joint × String} (h : level ≤ l.1.level)
    (rest : Links) : Links.upTo level (l :: rest) = l :: Links.upTo level rest :=
  List.takeWhile_cons_of_pos (p := fun l : Joint × String => decide (level ≤ l.1.level))
    (decide_eq_true h)

theorem Links.upTo_cons_of_lt {level : Nat} {l : Joint × String} (h : l.1.level < level)
    (rest : Links) : Links.upTo level (l :: rest) = [] :=
  List.takeWhile_cons_of_neg (p := fun l : Joint × String => decide (level ≤ l.1.level))
    (by simpa using h)

theorem Links.beyond_cons_of_le {level : Nat} {l : Joint × String} (h : level ≤ l.1.level)
    (rest : Links) : Links.beyond level (l :: rest) = Links.beyond level rest :=
  List.dropWhile_cons_of_pos (p := fun l : Joint × String => decide (level ≤ l.1.level))
    (decide_eq_true h)

theorem Links.beyond_cons_of_lt {level : Nat} {l : Joint × String} (h : l.1.level < level)
    (rest : Links) : Links.beyond level (l :: rest) = l :: rest :=
  List.dropWhile_cons_of_neg (p := fun l : Joint × String => decide (level ≤ l.1.level))
    (by simpa using h)

theorem Links.le_of_mem_upTo {level : Nat} {links : Links} {l : Joint × String}
    (h : l ∈ Links.upTo level links) : level ≤ l.1.level :=
  of_decide_eq_true
    (List.mem_takeWhile_imp (p := fun l : Joint × String => decide (level ≤ l.1.level)) h)

theorem Links.length_beyond_le (level : Nat) (links : Links) :
    (Links.beyond level links).length ≤ links.length :=
  (List.dropWhile_suffix _).length_le

theorem Links.upTo_zero (links : Links) : Links.upTo 0 links = links :=
  List.takeWhile_eq_self_iff.2 fun l _ => decide_eq_true (Nat.zero_le l.1.level)

theorem Links.beyond_zero (links : Links) : Links.beyond 0 links = [] :=
  List.dropWhile_eq_nil_iff.2 fun l _ => decide_eq_true (Nat.zero_le l.1.level)

/-- What the level leaves begins with a looser operator. -/
theorem Links.lt_of_head_beyond {level : Nat} {links : Links} :
    ∀ l ∈ (Links.beyond level links).head?, l.1.level < level := by
  intro l hl
  have hnot :=
    List.head?_dropWhile_not (fun l : Joint × String => decide (level ≤ l.1.level)) links
  unfold Links.beyond at hl
  rw [hl] at hnot
  simpa using hnot

/-- What the next tighter level reads is the first part of what the level reads. -/
theorem Links.upTo_succ_append (level : Nat) (links : Links) :
    Links.upTo (level + 1) links ++ Links.upTo level (Links.beyond (level + 1) links) =
      Links.upTo level links := by
  induction links with
  | nil => rfl
  | cons l rest ih =>
    by_cases hl : level + 1 ≤ l.1.level
    · rw [Links.upTo_cons_of_le hl, Links.beyond_cons_of_le hl,
        Links.upTo_cons_of_le (Nat.le_of_succ_le hl),
        List.cons_append, ih]
    · rw [Links.upTo_cons_of_lt (Nat.lt_of_not_le hl),
        Links.beyond_cons_of_lt (Nat.lt_of_not_le hl), List.nil_append]

theorem Links.beyond_beyond_succ (level : Nat) (links : Links) :
    Links.beyond level (Links.beyond (level + 1) links) = Links.beyond level links := by
  induction links with
  | nil => rfl
  | cons l rest ih =>
    by_cases hl : level + 1 ≤ l.1.level
    · rw [Links.beyond_cons_of_le hl, Links.beyond_cons_of_le (Nat.le_of_succ_le hl), ih]
    · rw [Links.beyond_cons_of_lt (Nat.lt_of_not_le hl)]

/-! ### Rows as tokens -/

/-- The tokens of links. -/
def Links.kinds : Links → List TokenKind
  | [] => []
  | (j, name) :: rest => .symbol j.symbol :: .name name :: Links.kinds rest

theorem Links.length_kinds (links : Links) :
    (Links.kinds links).length = 2 * links.length := by
  induction links with
  | nil => rfl
  | cons link rest ih =>
    rw [Links.kinds, List.length_cons, List.length_cons, ih, List.length_cons, Nat.mul_succ]

end Grammar

/-- The stream has these tokens on one line, and then it ends. -/
structure Stream.Holds (s : Stream) (ks : List TokenKind) : Prop where
  offers : s.Offers ks
  final : s.final.kind = .finish

namespace Stream.Holds

variable {s : Stream} {k : TokenKind} {ks : List TokenKind}

theorem head_kind (h : s.Holds ks) : s.head.kind = ks.headD .finish := by
  cases ks with
  | nil => exact Grammar.head_of_rest_nil (List.map_eq_nil_iff.1 h.offers.kinds) h.final
  | cons k ks => exact h.offers.head_kind

theorem tail (h : s.Holds (k :: ks)) : s.tail.Holds ks :=
  ⟨h.offers.tail, (Grammar.final_tail s).symm ▸ h.final⟩

end Stream.Holds

namespace Grammar

/-- The answer is this expression up to its places, and these links are left. -/
def Leaving (e : Expr) (links : Links) (e' : Expr) (s : Stream) : Prop :=
  e'.bare = e.bare ∧ s.Holds (Links.kinds links)

section
variable {r : Rules} {s : Stream} {name : String} {links : Links}

/-- Neither an operator nor the end goes on with an operand. -/
theorem endsChain_head (links : Links) :
    ((Links.kinds links).headD .finish).endsChain = true ∧
      updateOp? ((Links.kinds links).headD .finish) = none := by
  cases links with
  | nil => exact ⟨rfl, rfl⟩
  | cons link rest =>
    obtain ⟨j, y⟩ := link
    cases j with
    | binary op => cases op <;> exact ⟨rfl, rfl⟩
    | logical op => cases op <;> exact ⟨rfl, rfl⟩

/-- A name, also if it is `async`, for no function follows. -/
theorem primary_name (hs : s.Holds (.name name :: Links.kinds links)) :
    primary r s = .ok (.ident name s.head.loc, s.tail) := by
  have hnext : s.rest[1]?.any (·.kind.isKeyword .functionKw) = false := by
    have hkind : s.rest[1]?.map (·.kind) = (Links.kinds links)[0]? := by
      rw [← List.getElem?_map, hs.offers.kinds]
      rfl
    cases links with
    | nil => rw [Option.map_eq_none_iff.1 hkind, Option.any_none]
    | cons link rest =>
      obtain ⟨t, ht, hkind⟩ := Option.map_eq_some_iff.1 hkind
      rw [ht, Option.any_some, hkind]
      rfl
  rw [primary, Parse.bind_eq (x := Parse.here) rfl,
    Parse.bind_eq (x := Parse.peek) rfl, hs.head_kind]
  dsimp only [List.headD_cons]
  rw [Parse.bind_eq (x := get) (s := s) rfl, hnext, Bool.and_false, if_neg Bool.false_ne_true]
  rfl

/-- A name is an operand of its own. -/
theorem unary_name (hs : s.Holds (.name name :: Links.kinds links)) :
    unary r s = .ok (.ident name s.head.loc, s.tail) := by
  obtain ⟨hchain, hupdate⟩ := endsChain_head links
  have hhead : s.head.kind = .name name := hs.head_kind
  have hcall : callChain r s = .ok (.ident name s.head.loc, s.tail) := by
    unfold callChain
    rw [Parse.bind_eq (atKeyword_eq hhead .newKw)]
    exact (Parse.bind_eq (primary_name hs)).trans (calls_eq hs.tail.head_kind hchain _ _)
  have hcounted : counted r s = .ok (.ident name s.head.loc, s.tail) := by
    unfold counted
    rw [Parse.bind_eq hcall, Parse.bind_eq (x := Parse.peek) rfl,
      hs.tail.head_kind, hupdate, ite_self]
    rfl
  unfold unary
  rw [Parse.bind_eq (x := Parse.peek) rfl, hhead]
  exact (Parse.bind_eq (eatKeyword_of_ne hhead rfl)).trans hcounted

/-! ### Levels of the grammar -/

theorem starStar_eq (j : Joint) :
    (TokenKind.symbol j.symbol).isSymbol .starStar = decide (j.level = 10) := by
  cases j with
  | binary op => cases op <;> rfl
  | logical op => cases op <;> rfl

theorem eq_pow_of_level {j : Joint} (h : j.level = 10) : j = .binary .pow := by
  cases j with
  | binary op => cases op <;> first | rfl | cases h
  | logical op => cases op <;> cases h

/-- Names with power operators between them. -/
theorem powers_grouped {n : Nat} (hn : links.length ≤ n)
    (hs : s.Holds (.name name :: Links.kinds links)) :
    ParsesIf True s (Leaving (grouped name (Links.upTo 10 links)) (Links.beyond 10 links))
      (powers r n) := by
  induction links generalizing n s name with
  | nil =>
    have hleaving : Leaving (grouped name []) [] (.ident name s.head.loc) s.tail := by
      rw [grouped_nil]
      exact ⟨rfl, hs.tail⟩
    cases n with
    | zero => exact .of_eq (unary_name hs) hleaving
    | succ n =>
      exact .step (unary_name hs)
        (.step (eatSymbol_of_ne hs.tail.head_kind rfl) (.pure hleaving))
  | cons link rest ih =>
    obtain ⟨j, y⟩ := link
    obtain ⟨n, rfl⟩ :=
      Nat.exists_eq_add_one_of_ne_zero (Nat.ne_zero_of_lt (Nat.lt_of_succ_le hn))
    refine .step (unary_name hs) ?_
    by_cases hj : j.level = 10
    · have hpow : (TokenKind.symbol j.symbol).isSymbol .starStar = true := by
        rw [starStar_eq, decide_eq_true hj]
      refine .step (eatSymbol_of hs.tail.head_kind hpow) ?_
      refine (ih (Nat.le_of_succ_le_succ hn) hs.tail.tail).andThen fun e s' h =>
        .pure ⟨?_, ?_⟩
      · -- All that is read behind a power is its exponent.
        have hlevel : ∀ l ∈ Links.upTo 10 rest, j.outlasts l.1 = true := fun l hl =>
          Joint.outlasts_eq_true.2
            (.inr ⟨hj, Nat.le_antisymm l.1.level_le (Links.le_of_mem_upTo hl)⟩)
        have hgrouped : grouped name ([] ++ (j, y) :: Links.upTo 10 rest) =
            j.join (grouped name []) (grouped y (Links.upTo 10 rest)) :=
          grouped_append name (List.forall_mem_nil _) hlevel
        rw [Links.upTo_cons_of_le hj.ge, ← List.nil_append ((j, y) :: _), hgrouped,
          grouped_nil, eq_pow_of_level hj]
        exact bare_join (.binary .pow) rfl h.1
      · rw [Links.beyond_cons_of_le hj.ge]
        exact h.2
    · have hlt : j.level < 10 := Nat.lt_of_le_of_ne j.level_le hj
      have hother : (TokenKind.symbol j.symbol).isSymbol .starStar = false := by
        rw [starStar_eq, decide_eq_false hj]
      refine .step (eatSymbol_of_ne hs.tail.head_kind hother) (.pure ?_)
      rw [Links.upTo_cons_of_lt hlt, Links.beyond_cons_of_lt hlt, grouped_nil]
      exact ⟨rfl, hs.tail⟩

/-- The rule reads the operators of this level and of all tighter ones from rows of up
to `n` links. -/
def ReadsLevel (level n : Nat) (x : Parse Expr) : Prop :=
  ∀ ⦃links : Links⦄ ⦃name : String⦄ ⦃s : Stream⦄, links.length ≤ n →
    s.Holds (.name name :: Links.kinds links) →
    ParsesIf True s
      (Leaving (grouped name (Links.upTo level links)) (Links.beyond level links)) x

/-- The tier has the operators of the level. -/
def Tier.HasLevel (t : Tier) (level : Nat) : Prop :=
  ∀ j : Joint, t.joint? (.symbol j.symbol) = if j.level = level then some j else none

/-- The tiers have the levels from `level` on, up to the one of the power. -/
def HaveLevels (level : Nat) : List Tier → Prop
  | [] => level = 10
  | t :: tighter => level < 10 ∧ t.HasLevel level ∧ HaveLevels (level + 1) tighter

theorem tiers_haveLevels : HaveLevels 0 tiers := by
  refine ⟨by decide, ?_, by decide, ?_, by decide, ?_, by decide, ?_, by decide, ?_,
    by decide, ?_, by decide, ?_, by decide, ?_, by decide, ?_, by decide, ?_, rfl⟩
  all_goals
    intro j
    cases j with
    | binary op => cases op <;> rfl
    | logical op => cases op <;> rfl

/-- Levels but the tightest group to the left. -/
theorem grouped_level (name : String) {level : Nat} (hlevel : level < 10) {j : Joint}
    (hj : j.level = level) {before : Links} (hbefore : ∀ l ∈ before, level ≤ l.1.level)
    (y : String) (rest : Links) :
    grouped name (before ++ (j, y) :: Links.upTo (level + 1) rest) =
      j.join (grouped name before) (grouped y (Links.upTo (level + 1) rest)) := by
  -- Only a tighter operator, or one of level 10, would outlast another one.
  refine grouped_append name (fun l hl => ?_) fun l hl => ?_
  · have hle := hbefore l hl
    rw [Bool.eq_false_iff, Ne, Joint.outlasts_eq_true]
    omega
  · have hle := Links.le_of_mem_upTo hl
    rw [Joint.outlasts_eq_true]
    omega

theorem le_level_append {level : Nat} {j : Joint} (hj : j.level = level) {before : Links}
    (hbefore : ∀ l ∈ before, level ≤ l.1.level) {y : String} {rest : Links} :
    ∀ l ∈ before ++ (j, y) :: Links.upTo (level + 1) rest, level ≤ l.1.level := by
  intro l hl
  obtain hl | hl := List.mem_append.1 hl
  · exact hbefore l hl
  obtain rfl | hl := List.mem_cons.1 hl
  · exact hj.ge
  · exact Nat.le_of_succ_le (Links.le_of_mem_upTo hl)

/-- The rounds of a level behind operands that it has joined already. -/
theorem tierRest_grouped {t : Tier} {level n : Nat} {x : Parse Expr} (ht : t.HasLevel level)
    (hlevel : level < 10) (hx : ReadsLevel (level + 1) n x) {before : Links}
    (hbefore : ∀ l ∈ before, level ≤ l.1.level) {e : Expr}
    (he : e.bare = (grouped name before).bare) {rounds : Nat}
    (hrounds : links.length ≤ rounds) (hn : links.length ≤ n)
    (hhead : ∀ l ∈ links.head?, l.1.level < level + 1) (hs : s.Holds (Links.kinds links)) :
    ParsesIf True s
      (Leaving (grouped name (before ++ Links.upTo level links)) (Links.beyond level links))
      (tierRest t x rounds e) := by
  induction rounds generalizing links before e s with
  | zero =>
    obtain rfl := List.length_eq_zero_iff.1 (Nat.le_zero.1 hrounds)
    rw [Links.upTo_nil, List.append_nil, Links.beyond_nil]
    exact .pure ⟨he, hs⟩
  | succ rounds ih =>
    cases links with
    | nil =>
      rw [Links.upTo_nil, List.append_nil, Links.beyond_nil]
      exact .of_eq (tierRest_eq hs.head_kind (joint?_finish t) _ e) ⟨he, hs⟩
    | cons link rest =>
      obtain ⟨j, y⟩ := link
      have hjoint := ht j
      by_cases hj : j.level = level
      · rw [if_pos hj] at hjoint
        have hhead : s.head.kind = .symbol j.symbol := hs.head_kind
        refine .step (x := Parse.peek) rfl ?_
        rw [hhead, hjoint]
        refine .step (x := Parse.skip) rfl ?_
        -- The operand takes all tighter links with it, and is joined to what has been read.
        refine (hx (Nat.le_of_succ_le hn) hs.tail).andThen fun right s' h => ?_
        have hjoined : (j.join e right).bare =
            (grouped name (before ++ (j, y) :: Links.upTo (level + 1) rest)).bare := by
          rw [grouped_level name hlevel hj hbefore]
          exact bare_join j he h.1
        have hlength := Links.length_beyond_le (level + 1) rest
        have hmore := ih (le_level_append hj hbefore) hjoined
          (hlength.trans (Nat.le_of_succ_le_succ hrounds))
          (hlength.trans (Nat.le_of_succ_le hn)) Links.lt_of_head_beyond h.2
        rw [List.append_assoc, List.cons_append, Links.upTo_succ_append,
          Links.beyond_beyond_succ] at hmore
        rw [Links.upTo_cons_of_le hj.ge, Links.beyond_cons_of_le hj.ge]
        exact hmore
      · -- Tighter links have been read with the operand, so this one is looser.
        rw [if_neg hj] at hjoint
        have hlt : j.level < level := Nat.lt_of_le_of_ne (Nat.le_of_lt_succ (hhead _ rfl)) hj
        rw [Links.upTo_cons_of_lt hlt, List.append_nil, Links.beyond_cons_of_lt hlt]
        exact .of_eq (tierRest_eq hs.head_kind hjoint _ e) ⟨he, hs⟩

/-- The tiers read from their level on what the operand reads from the level of
the power on. -/
theorem layered_grouped {n : Nat} {x : Parse Expr} (hx : ReadsLevel 10 n x) {level : Nat}
    {ts : List Tier} (hts : HaveLevels level ts) : ReadsLevel level n (layered x ts) := by
  induction ts generalizing level with
  | nil =>
    obtain rfl : level = 10 := hts
    exact hx
  | cons t tighter ih =>
    obtain ⟨hlevel, ht, htighter⟩ := hts
    have hoperand := ih htighter
    intro links name s hn hs
    -- The tighter tiers read the first operand, and the rounds of this one begin with what
    -- they leave.
    refine (hoperand hn hs).andThen fun first s' h => ?_
    have hrounds : (Links.beyond (level + 1) links).length ≤ s'.size := by
      rw [h.2.offers.size_eq, Links.length_kinds]
      omega
    have hrest := tierRest_grouped ht hlevel hoperand
      (fun l hl => Nat.le_of_succ_le (Links.le_of_mem_upTo hl)) h.1 hrounds
      ((Links.length_beyond_le _ _).trans hn) Links.lt_of_head_beyond h.2
    rw [Links.upTo_succ_append, Links.beyond_beyond_succ] at hrest
    exact .step (x := Parse.remaining) rfl hrest

theorem joined_grouped (hs : s.Holds (.name name :: Links.kinds links)) :
    ParsesIf True s (Leaving (grouped name links) []) (joined r) := by
  have hsize : links.length ≤ s.size := by
    rw [hs.offers.size_eq, List.length_cons, Links.length_kinds]
    omega
  have hpowers : ReadsLevel 10 s.size (powers r s.size) :=
    fun links name s' hn hs' => powers_grouped hn hs'
  have hrow := layered_grouped hpowers tiers_haveLevels hsize hs
  rw [Links.upTo_zero, Links.beyond_zero] at hrow
  exact .step (x := Parse.remaining) rfl hrow

/-! ### Rows as programs -/

theorem conditional_grouped (hs : s.Holds (.name name :: Links.kinds links)) :
    ParsesIf True s (Leaving (grouped name links) []) (conditional r) :=
  (joined_grouped hs).andThen fun _ _ h => .step (eatSymbol_of_ne h.2.head_kind rfl) (.pure h)

theorem assignment_grouped (hs : s.Holds (.name name :: Links.kinds links)) :
    ParsesIf True s (Leaving (grouped name links) []) (assignment r) := by
  refine .step (x := get) rfl ?_
  rw [arrowAhead?_eq_none fun t ht => (hs.offers.plain t ht).2]
  refine (conditional_grouped hs).andThen fun e s' h => .step (x := Parse.peek) rfl ?_
  rw [h.2.head_kind]
  exact .pure h

/-- At the end of the text a statement ends without a semicolon. -/
theorem endStatement_eq (hs : s.Holds []) : Parse.endStatement s = .ok ((), s) := by
  rw [Parse.endStatement, Parse.bind_eq (eatSymbol_of_ne hs.head_kind rfl), Bool.not_false,
    if_pos rfl, Parse.bind_eq (x := Parse.peek) rfl, Parse.bind_eq (atEnd_eq hs.offers),
    List.isEmpty_nil, Bool.or_true,
    Bool.not_true, if_neg Bool.false_ne_true]
  rfl

theorem startsAsyncFunction_row (hs : s.Holds (.name name :: Links.kinds links)) :
    startsAsyncFunction s.rest = false := by
  obtain ⟨t, rest, hrest, -, hkinds⟩ := hs.offers.exists_cons
  rw [hrest]
  cases links with
  | nil =>
    obtain rfl := List.map_eq_nil_iff.1 hkinds
    rfl
  | cons link links =>
    obtain ⟨u, rest, rfl, hu, -⟩ := List.map_eq_cons_iff.1 hkinds
    simp [startsAsyncFunction, hu, TokenKind.isKeyword]

theorem statement_grouped
    (hr : ∀ s', s'.Holds (.name name :: Links.kinds links) →
      ParsesIf True s' (Leaving (grouped name links) []) r.expr)
    (hs : s.Holds (.name name :: Links.kinds links)) :
    ParsesIf True s
      (fun st s' => IsExprStmt (grouped name links) st ∧ s'.Holds []) (statement r) := by
  have hopens : s.head.kind.opensExpr = true := by
    rw [hs.head_kind]
    rfl
  unfold ParsesIf
  rw [statement_eq_exprStmt hopens (startsAsyncFunction_row hs)]
  refine (hr s hs).andThen fun e s' h => .step (endStatement_eq h.2) ?_
  exact .step (x := Parse.spanFrom _) rfl (.pure ⟨⟨e, _, rfl, h.1⟩, h.2⟩)

theorem program_grouped {d : Nat} (hs : s.Holds (.name name :: Links.kinds links)) :
    ParsesIf True s (fun p _ => ∃ st, p.body = [st] ∧ IsExprStmt (grouped name links) st)
      (program (.atDepth (d + 2))) := by
  obtain ⟨n, hn⟩ := hs.offers.exists_remaining nofun
  refine .step (x := Parse.here) rfl (.step hn ?_)
  refine .andThen (Q := fun body s' => ∃ st, body = [st] ∧ IsExprStmt (grouped name links) st)
    ?_ fun body s' h => ?_
  · refine .step (atEnd_eq hs.offers) ?_
    refine (statement_grouped (r := Rules.atDepth (d + 1))
      (fun s' hs' => assignment_grouped hs') hs).andThen
      fun st s' h => ?_
    exact .step (programItems_eq_nil h.2.offers n) (.pure ⟨st, rfl, h.1⟩)
  · exact .step (x := Parse.here) rfl (.pure h)

end

end Grammar

/-! ### Rows as texts -/

/-- The text of a row that begins with the name, with blanks around the operators. -/
def rowText (name : String) : Grammar.Links → String
  | [] => name
  | (j, next) :: rest => name ++ " " ++ j.text ++ " " ++ rowText next rest

theorem toList_rowText (name : String) (links : Grammar.Links) :
    (rowText name links).toList = (TokenKind.name name).spelling ++
      spaced (Grammar.Links.kinds links) := by
  induction links generalizing name with
  | nil => exact (List.append_nil _).symm
  | cons link rest ih =>
    obtain ⟨j, next⟩ := link
    have hblank : " ".toList = [' '] := by decide
    rw [rowText, Grammar.Links.kinds, spaced_cons, spaced_cons]
    simp only [String.toList_append, ih next, hblank, TokenKind.spelling, j.text_symbol,
      List.append_assoc, List.cons_append, List.nil_append]

theorem writable_row {name : String} (hname : IsName name) {links : Grammar.Links}
    (hlinks : ∀ l ∈ links, IsName l.2) :
    ∀ k ∈ .name name :: Grammar.Links.kinds links, k.Writable ∧
      k.isSymbol .arrow = false := by
  induction links generalizing name with
  | nil => exact List.forall_mem_cons.2 ⟨⟨hname, rfl⟩, List.forall_mem_nil _⟩
  | cons l rest ih =>
    have hsymbol : (TokenKind.symbol l.1.symbol).isSymbol .arrow = false := by
      cases l.1 with
      | binary op => cases op <;> rfl
      | logical op => cases op <;> rfl
    have hrest :=
      ih (hlinks l List.mem_cons_self) fun l' hl' => hlinks l' (List.mem_cons_of_mem l hl')
    exact List.forall_mem_cons.2
      ⟨⟨hname, rfl⟩, List.forall_mem_cons.2 ⟨⟨trivial, hsymbol⟩, hrest⟩⟩

/-- A row of names with operators between them, of any length, is a program of one expression,
which is the tree of the row. -/
theorem parseProgram_row {name : String} (hname : IsName name) {links : Grammar.Links}
    (hlinks : ∀ l ∈ links, IsName l.2) :
    ∃ p e l, parseProgram (rowText name links) = .ok p ∧ p.body = [.expr e l] ∧
      e.bare = (Grammar.grouped name links).bare := by
  have hrow := writable_row hname hlinks
  obtain ⟨ts, hts, hkinds, hlines, hfinal⟩ :=
    tokenize_spaced (fun k hk => (hrow k hk).1) (toList_rowText name links)
  have hs : (Stream.ofTokens ts).Holds (.name name :: Grammar.Links.kinds links) := by
    refine ⟨⟨hkinds, fun t ht => ⟨hlines t ht, (hrow _ ?_).2⟩⟩, hfinal⟩
    rw [← hkinds]
    exact List.mem_map_of_mem ht
  have hprogram : ParsesIf True _ _ (Grammar.program (.atDepth maxNesting)) :=
    Grammar.program_grouped hs
  have hparse : parseProgram (rowText name links) =
      (Grammar.program (.atDepth maxNesting) (Stream.ofTokens ts)).map Prod.fst := by
    rw [parseProgram, hts]
    rfl
  unfold ParsesIf at hprogram
  split at hprogram
  · next p s' hp =>
    obtain ⟨-, st, hbody, e, l, rfl, hbare⟩ := hprogram
    rw [hp] at hparse
    exact ⟨p, e, l, hparse, hbody, hbare⟩
  · exact absurd trivial hprogram.1

/-- Differences, powers and an alternative. -/
def mixedLinks : Grammar.Links :=
  [(.binary .sub, "b"), (.binary .pow, "c"), (.binary .pow, "d"),
    (.binary .sub, "e"), (.logical .or, "f")]

theorem isName_letter {c : Char} (hc : isNameStart c = true)
    (hk : Keyword.ofText? (String.ofList [c]) = none) : IsName (String.ofList [c]) :=
  ⟨⟨c, [], String.toList_ofList, hc, nofun⟩, hk⟩

theorem isName_mixedLinks : ∀ l ∈ mixedLinks, IsName l.2 := by
  intro l hl
  simp only [mixedLinks, List.mem_cons, List.not_mem_nil, or_false] at hl
  obtain rfl | rfl | rfl | rfl | rfl := hl
  · exact isName_letter (c := 'b') (by decide +kernel) (by decide +kernel)
  · exact isName_letter (c := 'c') (by decide +kernel) (by decide +kernel)
  · exact isName_letter (c := 'd') (by decide +kernel) (by decide +kernel)
  · exact isName_letter (c := 'e') (by decide +kernel) (by decide +kernel)
  · exact isName_letter (c := 'f') (by decide +kernel) (by decide +kernel)

theorem parseProgram_mixedLinks : rowText "a" mixedLinks = "a - b ** c ** d - e || f" ∧
    ∃ p e l, parseProgram (rowText "a" mixedLinks) = .ok p ∧ p.body = [.expr e l] ∧
      e.bare = (Grammar.grouped "a" mixedLinks).bare :=
  ⟨by decide +kernel,
    parseProgram_row
      (isName_letter (c := 'a') (by decide +kernel) (by decide +kernel)) isName_mixedLinks⟩

end ScriptReplay
