/-
Chains of scopes.

* `Scopes.Linked` : a chain that leads from a scope to the global one through parents;
* `Scopes.WellFormed` : scopes that know their numbers, with one global scope;
* `Scopes.Grown` : scopes are kept, apart from the values that they bind;
* `Scopes.functionScope_eq_owner` : where a chain has its innermost function, its innermost
  scope has its owner.
-/
import Mathlib.Data.List.Chain
import ScriptReplay.Proofs.Stored

namespace ScriptReplay

/-- A scope without its bindings. -/
def Scope.shell (s : Scope) : Scope :=
  { s with vars := .empty }

namespace Scopes

/-! ### Definitions -/

/-- A chain that ends with the global scope, each scope inside its parent and
opened after it. -/
structure Linked (s : Scopes) (chain : Chain) : Prop where
  last : chain.getLast? = some globalId
  links : chain.IsChain fun inner outer =>
    outer < inner ∧ (s.get? inner).bind (·.parent) = some outer

/-- Scopes that know their numbers.  The global scope is the first one and the only one
of its kind. -/
structure WellFormed (s : Scopes) : Prop where
  indexed : ∀ id scope, s.get? id = some scope → scope.id = id
  global_iff : ∀ id scope, s.get? id = some scope → (scope.kind = .global ↔ id = globalId)
  nonempty : 0 < s.size

/-- Every scope of the first is in the second and binds there at least the same names. -/
structure Grown (s s' : Scopes) : Prop where
  size_le : s.size ≤ s'.size
  shell : ∀ id scope, s.get? id = some scope → ∃ scope', s'.get? id = some scope' ∧
    scope'.shell = scope.shell
  binds : ∀ id name, s.binds id name = true → s'.binds id name = true

/-- The innermost function scope of a chain. -/
def innermostFunction? (s : Scopes) (chain : Chain) : Option ScopeId :=
  chain.find? fun id => (s.get? id).any (·.kind == .function)

/-! ### Growth -/

theorem Grown.refl (s : Scopes) : s.Grown s :=
  ⟨Nat.le_refl _, fun _ scope h => ⟨scope, h, rfl⟩, fun _ _ h => h⟩

theorem Grown.trans {s s' s'' : Scopes} (h : s.Grown s') (h' : s'.Grown s'') :
    s.Grown s'' := by
  refine ⟨Nat.le_trans h.size_le h'.size_le, fun id scope hs => ?_,
    fun id name hb => h'.binds id name (h.binds id name hb)⟩
  obtain ⟨scope', hs', heq⟩ := h.shell id scope hs
  obtain ⟨scope'', hs'', heq'⟩ := h'.shell id scope' hs'
  exact ⟨scope'', hs'', heq'.trans heq⟩

/-- A scope that is there binds a name that was bound in it. -/
theorem binds_declare_self {s : Scopes} {id : ScopeId} (hid : id < s.size) (name : String)
    (value : Value) (isConst : Bool) :
    (s.declare id name value isConst).binds id name = true := by
  obtain ⟨scope, hscope⟩ := exists_get?_of_lt hid
  unfold binds Table.contains
  rw [get?_declare, if_pos rfl, hscope, Option.map_some, Option.any_some,
    Table.get?_insert, if_pos rfl]
  rfl

/-- What was bound before a name stays so after it. -/
theorem binds_declare_of_binds {s : Scopes} {id' : ScopeId} {name' : String}
    (h : s.binds id' name' = true) (id : ScopeId) (name : String) (value : Value)
    (isConst : Bool) : (s.declare id name value isConst).binds id' name' = true := by
  unfold binds Table.contains at h ⊢
  obtain ⟨scope, hscope, hvar⟩ := (Option.any_eq_true _ _).1 h
  rw [get?_declare]
  split
  · rw [hscope, Option.map_some, Option.any_some, Table.get?_insert]
    split
    · rfl
    · exact hvar
  · exact h

theorem grown_declare (s : Scopes) (id : ScopeId) (name : String) (value : Value)
    (isConst : Bool) : s.Grown (s.declare id name value isConst) := by
  refine ⟨Nat.le_of_eq (size_declare s id name value isConst).symm, fun id' scope hs => ?_,
    fun _ _ h => binds_declare_of_binds h id name value isConst⟩
  rw [get?_declare, hs]
  split
  · exact ⟨_, rfl, rfl⟩
  · exact ⟨scope, rfl, rfl⟩

theorem grown_openScope (s : Scopes) (kind : ScopeKind) (name : String) (chain : Chain) :
    s.Grown (s.openScope kind name chain).2 := by
  have hkept : ∀ id scope, s.get? id = some scope →
      (s.openScope kind name chain).2.get? id = some scope := by
    intro id scope hs
    rw [get?_openScope, if_neg (Nat.ne_of_lt (lt_size_of_get? hs))]
    exact hs
  refine ⟨?_, fun id scope hs => ⟨scope, hkept id scope hs, rfl⟩, fun id name' hb => ?_⟩
  · show s.all.size ≤ (s.all.push _).size
    rw [Array.size_push]
    exact Nat.le_succ _
  · unfold binds at hb ⊢
    obtain ⟨scope, hscope, hvar⟩ := (Option.any_eq_true _ _).1 hb
    rw [hkept id scope hscope]
    exact hvar

/-- What can be read off a scope without its bindings stays. -/
theorem Grown.any_eq {s s' : Scopes} (h : s.Grown s') (f : Scope → Bool)
    (hf : ∀ scope, f scope.shell = f scope) {id : ScopeId} (hid : id < s.size) :
    (s'.get? id).any f = (s.get? id).any f := by
  obtain ⟨scope, hs⟩ := exists_get?_of_lt hid
  obtain ⟨scope', hs', heq⟩ := h.shell id scope hs
  rw [hs', hs, Option.any_some, Option.any_some, ← hf scope', heq, hf]

/-! ### Well-formed scopes -/

theorem wellFormed_initial : Scopes.initial.WellFormed := by
  have hget : ∀ id scope, Scopes.initial.get? id = some scope →
      id = 0 ∧ scope = ⟨globalId, .global, "Global", .empty, none⟩ := by
    intro id scope hs
    obtain rfl : id = 0 := Nat.lt_one_iff.1 (lt_size_of_get? hs)
    cases hs
    exact ⟨rfl, rfl⟩
  refine ⟨fun id scope hs => ?_, fun id scope hs => ?_, Nat.one_pos⟩
  · obtain ⟨rfl, rfl⟩ := hget id scope hs
    rfl
  · obtain ⟨rfl, rfl⟩ := hget id scope hs
    exact ⟨fun _ => rfl, fun _ => rfl⟩

theorem WellFormed.declare {s : Scopes} (h : s.WellFormed) (id : ScopeId) (name : String)
    (value : Value) (isConst : Bool) : (s.declare id name value isConst).WellFormed := by
  have hget : ∀ id' scope', (s.declare id name value isConst).get? id' = some scope' →
      ∃ scope, s.get? id' = some scope ∧ scope'.shell = scope.shell := by
    intro id' scope' hs
    rw [get?_declare] at hs
    split at hs
    · obtain ⟨scope, hscope, rfl⟩ := Option.map_eq_some_iff.1 hs
      exact ⟨scope, hscope, rfl⟩
    · exact ⟨scope', hs, rfl⟩
  refine ⟨fun id' scope' hs => ?_, fun id' scope' hs => ?_, ?_⟩
  · obtain ⟨scope, hscope, heq⟩ := hget id' scope' hs
    exact (congrArg Scope.id heq).trans (h.indexed id' scope hscope)
  · obtain ⟨scope, hscope, heq⟩ := hget id' scope' hs
    have hkind : scope'.kind = scope.kind := (congrArg Scope.kind heq :)
    rw [hkind]
    exact h.global_iff id' scope hscope
  · rw [size_declare]
    exact h.nonempty

theorem WellFormed.openScope {s : Scopes} (h : s.WellFormed) {kind : ScopeKind}
    (hk : kind ≠ .global) (name : String) (chain : Chain) :
    (s.openScope kind name chain).2.WellFormed := by
  refine ⟨fun id scope hs => ?_, fun id scope hs => ?_, ?_⟩
  · rw [get?_openScope] at hs
    split at hs
    · next hid =>
      cases hs
      exact hid.symm
    · exact h.indexed id scope hs
  · rw [get?_openScope] at hs
    split at hs
    · next hid =>
      cases hs
      have hpos := h.nonempty
      exact ⟨fun hglobal => absurd hglobal hk, fun hzero =>
        absurd (hid.symm.trans hzero) (Nat.ne_of_gt hpos)⟩
    · exact h.global_iff id scope hs
  · exact Nat.lt_of_lt_of_le h.nonempty (grown_openScope s kind name chain).size_le

/-! ### Linked chains -/

theorem linked_global (s : Scopes) : s.Linked [globalId] :=
  ⟨rfl, .singleton _⟩

/-- A linked chain is the global scope alone, or a scope before the linked chain of
its parent. -/
theorem Linked.cases {s : Scopes} {chain : Chain} (h : s.Linked chain) :
    chain = [globalId] ∨ ∃ id outer rest, chain = id :: outer :: rest ∧ outer < id ∧
      (s.get? id).bind (·.parent) = some outer ∧ s.Linked (outer :: rest) := by
  rcases chain with _ | ⟨id, _ | ⟨outer, rest⟩⟩
  · cases h.last
  · exact .inl (congrArg (· :: []) (Option.some.inj h.last))
  · obtain ⟨⟨hlt, hparent⟩, hlinks⟩ := List.isChain_cons_cons.1 h.links
    exact .inr ⟨id, outer, rest, rfl, hlt, hparent, ⟨h.last, hlinks⟩⟩

theorem Linked.ne_nil {s : Scopes} {chain : Chain} (h : s.Linked chain) : chain ≠ [] := by
  rintro rfl
  cases h.last

theorem Linked.lt_size {s : Scopes} (hs : s.WellFormed) {chain : Chain} (h : s.Linked chain) :
    ∀ id ∈ chain, id < s.size := by
  induction chain with
  | nil => exact fun _ hid => (List.not_mem_nil hid).elim
  | cons head tail ih =>
    intro id hid
    rcases h.cases with heq | ⟨inner, outer, rest, heq, -, hparent, hrest⟩
    · rw [heq] at hid
      rw [List.mem_singleton.1 hid]
      exact hs.nonempty
    · cases heq
      rcases List.mem_cons.1 hid with rfl | hid
      · obtain ⟨scope, hscope, -⟩ := Option.bind_eq_some_iff.1 hparent
        exact lt_size_of_get? hscope
      · exact ih hrest id hid

theorem Linked.grown {s s' : Scopes} {chain : Chain} (h : s.Linked chain) (hg : s.Grown s') :
    s'.Linked chain := by
  refine ⟨h.last, h.links.imp fun inner outer hlink => ⟨hlink.1, ?_⟩⟩
  obtain ⟨scope, hscope, hparent⟩ := Option.bind_eq_some_iff.1 hlink.2
  obtain ⟨scope', hscope', heq⟩ := hg.shell inner scope hscope
  rw [hscope', Option.bind_some]
  exact (congrArg Scope.parent heq :).trans hparent

theorem Linked.openScope {s : Scopes} (hs : s.WellFormed) {chain : Chain} (h : s.Linked chain)
    (kind : ScopeKind) (name : String) :
    (s.openScope kind name chain).2.Linked (s.size :: chain) := by
  have hg := h.grown (grown_openScope s kind name chain)
  have hlt := h.lt_size hs
  cases chain with
  | nil => exact absurd rfl h.ne_nil
  | cons outer rest =>
    refine ⟨h.last, List.isChain_cons_cons.2 ⟨⟨hlt outer List.mem_cons_self, ?_⟩, hg.links⟩⟩
    rw [get?_openScope, if_pos rfl]
    rfl

theorem innermostFunction?_grown {s s' : Scopes} (hg : s.Grown s') {chain : Chain}
    (hlt : ∀ id ∈ chain, id < s.size) :
    s'.innermostFunction? chain = s.innermostFunction? chain := by
  unfold innermostFunction?
  induction chain with
  | nil => rfl
  | cons id rest ih =>
    rw [List.find?_cons, List.find?_cons,
      hg.any_eq _ (fun _ => rfl) (hlt id List.mem_cons_self),
      ih fun id' h => hlt id' (List.mem_cons_of_mem _ h)]

/-- The innermost function among the scopes that a step shows is that of the chain. -/
theorem find?_snapshot {s : Scopes} (hs : s.WellFormed) (chain : Chain) :
    ((s.snapshot chain).reverse.find? (·.kind == .function)).map (·.id) =
      s.innermostFunction? chain := by
  unfold snapshot innermostFunction?
  rw [← List.filterMap_reverse, List.reverse_reverse]
  induction chain with
  | nil => rfl
  | cons id rest ih =>
    rw [List.find?_cons]
    cases hscope : s.get? id with
    | none =>
      rw [List.filterMap_cons_none hscope]
      exact ih
    | some scope =>
      rw [List.filterMap_cons_some hscope, List.find?_cons, Option.any_some]
      cases scope.kind == .function with
      | true => exact congrArg some (hs.indexed id scope hscope)
      | false => exact ih

/-! ### Owners -/

/-- Walking through parents finds the same scope as walking along a linked chain. -/
theorem ownerWithin_eq {s : Scopes} (hs : s.WellFormed) {rest : Chain} {id : ScopeId}
    (h : s.Linked (id :: rest)) {bound : Nat} (hb : id < bound) :
    (s.ownerWithin id bound).getD globalId = s.functionScope (id :: rest) := by
  induction rest generalizing id bound with
  | nil =>
    rcases h.cases with heq | ⟨_, _, _, heq, -⟩
    · cases heq
      obtain ⟨bound, rfl⟩ := Nat.exists_eq_succ_of_ne_zero (Nat.ne_of_gt hb)
      obtain ⟨scope, hscope⟩ := exists_get?_of_lt hs.nonempty
      have hkind : scope.kind = .global := (hs.global_iff _ scope hscope).2 rfl
      unfold ownerWithin functionScope
      change s.get? globalId = some scope at hscope
      simp [hscope, hkind]
    · cases heq
  | cons outer rest ih =>
    rcases h.cases with heq | ⟨_, _, _, heq, hlt, hparent, hrest⟩
    · cases heq
    cases heq
    obtain ⟨bound, rfl⟩ := Nat.exists_eq_succ_of_ne_zero (Nat.ne_zero_of_lt hb)
    obtain ⟨scope, hscope, hparent⟩ := Option.bind_eq_some_iff.1 hparent
    have hnext := ih hrest (Nat.lt_of_lt_of_le hlt (Nat.le_of_lt_succ hb))
    cases hkind : scope.kind with
    | function =>
      unfold ownerWithin functionScope
      simp [hscope, hkind, hs.indexed id scope hscope]
    | global => exact absurd ((hs.global_iff id scope hscope).1 hkind) (Nat.ne_zero_of_lt hlt)
    | block =>
      -- Both walks go on to the parent, which is the next scope of the chain.
      have howner : s.ownerWithin id (bound + 1) = s.ownerWithin outer bound := by
        conv => lhs; unfold ownerWithin
        simp [hscope, hkind, hparent]
      have hfunction : s.functionScope (id :: outer :: rest) =
          s.functionScope (outer :: rest) := by
        unfold functionScope
        rw [List.find?_cons]
        simp [hscope, hkind]
      rw [howner, hfunction]
      exact hnext

/-- Where `var` binds is where the innermost scope has its owner, or else the global scope. -/
theorem functionScope_eq_owner {s : Scopes} (hs : s.WellFormed) {chain : Chain}
    (h : s.Linked chain) :
    s.functionScope chain = (chain.head?.bind s.owner?).getD globalId := by
  cases chain with
  | nil => exact absurd rfl h.ne_nil
  | cons id rest =>
    have hlt := h.lt_size hs id List.mem_cons_self
    exact (ownerWithin_eq hs h (Nat.lt_succ_of_lt hlt)).symm

end Scopes

end ScriptReplay
