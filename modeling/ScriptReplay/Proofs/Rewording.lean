/-
A loop under another name.

A loop can be told of in two ways: under two names of its scope, and with two titles in the
steps that tell of it.  Whatever runs inside the loop runs in the same way under both names.

* `Scopes.rename` : scopes of which one has another name;
* `Rewording` : a loop and the two ways of telling of it;
* `Rewording.Likens` : states that two runs can be in, one for each way;
* `Rewording.Agree` : outcomes that are the same but for this;
* `Rewording.agrees_of_acts` : computations made of the same actions have such outcomes.

Design notes: the steps from before the loop are the same in both runs and need not be steps
of any run, so nothing has to be known of the state in which the loop is begun.
-/
import ScriptReplay.Proofs.Ceilings

namespace ScriptReplay

/-! ### Scopes under other names -/

namespace Scopes

/-- The scopes with one of them under another name. -/
def rename (s : Scopes) (id : ScopeId) (name : String) : Scopes :=
  s.modify id fun scope => { scope with name := name }

variable (s : Scopes) (id : ScopeId) (name : String)

theorem get?_rename (id' : ScopeId) :
    (s.rename id name).get? id' =
      if id = id' then (s.get? id').map fun scope =>
        { scope with name := name } else s.get? id' := by
  unfold rename modify get?
  exact Array.getElem?_modify

theorem size_rename : (s.rename id name).size = s.size :=
  Array.size_modify

theorem ext_get? {s s' : Scopes} (h : ∀ id, s'.get? id = s.get? id) : s' = s := by
  obtain ⟨all⟩ := s
  obtain ⟨all'⟩ := s'
  exact congrArg Scopes.mk (Array.ext_getElem? h)

theorem rename_nameless :
    (s.rename id name).all.map Scope.nameless = s.all.map Scope.nameless := by
  refine Array.ext_getElem? fun i => ?_
  have hget := s.get?_rename id name i
  unfold get? at hget
  rw [Array.getElem?_map, Array.getElem?_map, hget]
  split
  · rw [Option.map_map]
    rfl
  · rfl

theorem rename_declare (id' : ScopeId) (name' : String) (value : Value) (isConst : Bool) :
    (s.rename id name).declare id' name' value isConst =
      (s.declare id' name' value isConst).rename id name := by
  refine ext_get? fun i => ?_
  rw [get?_declare, get?_rename, get?_rename, get?_declare]
  -- A binding and a name are different parts of a scope, so they can be written in any order.
  by_cases hid : id = i
  · by_cases hid' : id' = i
    · rw [if_pos hid, if_pos hid', if_pos hid, if_pos hid', Option.map_map, Option.map_map]
      rfl
    · rw [if_pos hid, if_neg hid', if_pos hid, if_neg hid']
  · rw [if_neg hid, if_neg hid]

theorem rename_openScope {s : Scopes} {id : ScopeId} (hid : id < s.size) (kind : ScopeKind)
    (name' : String) (chain : Chain) :
    ((s.rename id name).openScope kind name' chain).2 =
      (s.openScope kind name' chain).2.rename id name := by
  refine ext_get? fun i => ?_
  rw [get?_openScope, get?_rename, get?_rename, get?_openScope, size_rename]
  by_cases hi : i = s.size
  · have hne : id ≠ i := hi ▸ Nat.ne_of_lt hid
    rw [if_pos hi, if_neg hne, if_pos hi]
  · rw [if_neg hi, if_neg hi]

theorem ownerWithin_rename (id' : ScopeId) (bound : Nat) :
    (s.rename id name).ownerWithin id' bound = s.ownerWithin id' bound := by
  induction bound generalizing id' with
  | zero => rfl
  | succ bound ih =>
    unfold ownerWithin
    rw [get?_rename]
    -- Neither the kind nor the parent of a scope changes with its name.
    cases s.get? id' with
    | none => rw [Option.map_none, ite_self]
    | some scope =>
      simp only [ih]
      by_cases hid : id = id'
      · rw [if_pos hid]
        rfl
      · rw [if_neg hid]

theorem owner?_rename (id' : ScopeId) : (s.rename id name).owner? id' = s.owner? id' := by
  unfold owner?
  rw [size_rename, ownerWithin_rename]

end Scopes

/-! ### Two ways of telling of a loop -/

/-- A loop, known by its scope and its place, with two names for the scope and two titles
for the loop. -/
structure Rewording where
  scope : ScopeId
  loc : Location
  name : String
  name' : String
  title : String
  title' : String

namespace Rewording

variable (W : Rewording)

/-- The same scope, or the scope of the loop under both names. -/
def LikensScope (s s' : Scope) : Prop :=
  s' = s ∨ s.id = W.scope ∧ s.name = W.name ∧ s' = { s with name := W.name' }

/-- A step that tells of the loop itself: that it starts, goes on or ends, while its scope is
the innermost. -/
def Owns (s : Step) : Prop :=
  s.kind ∈ [.loopStart, .loopIteration, .loopEnd] ∧ s.loc = W.loc ∧
    s.scopes.getLast?.map (·.id) = some W.scope

/-- The same step, told in both ways. -/
structure LikensStep (s s' : Step) : Prop where
  same : s' = { s with scopes := s'.scopes, description := s'.description }
  scopes : List.Forall₂ W.LikensScope s.scopes s'.scopes
  description : s'.description = s.description ∨
    W.Owns s ∧ ∃ told, s.description = W.title ++ " loop " ++ told ∧
    s'.description = W.title' ++ " loop " ++ told

/-- The same state, told in both ways since the steps in `old` were recorded. -/
structure Likens (old : List Step) (m m' : Machine) : Prop where
  same : m' = { m with scopes := m.scopes.rename W.scope W.name', trace := m'.trace }
  named : ∃ s, m.scopes.get? W.scope = some s ∧ s.id = W.scope ∧ s.name = W.name
  max : m'.trace.max = m.trace.max
  steps : ∃ new new', m.trace.newest = new ++ old ∧ m'.trace.newest = new' ++ old ∧
    List.Forall₂ W.LikensStep new new'

/-- The same outcome, told in both ways. -/
def Agree {α : Type} (old : List Step) (o o' : Except Stop α × Machine) : Prop :=
  o'.1 = o.1 ∧ W.Likens old o.2 o'.2

/-- Two computations with the same outcomes. -/
def Agrees {α : Type} (x y : Run α) : Prop :=
  ∀ L old m m', W.Likens old m m' → W.Agree old (x.outcome L m) (y.outcome L m')

variable {W} {old : List Step} {m m' : Machine}

/-! ### States -/

/-- The state told in the other way, with its trace. -/
def tell (W : Rewording) (m : Machine) (trace : Recorder) : Machine :=
  { m with scopes := m.scopes.rename W.scope W.name', trace := trace }

theorem Likens.exists_tell (h : W.Likens old m m') : ∃ trace, m' = W.tell m trace :=
  ⟨m'.trace, h.same⟩

/-- A state with the same steps in which the loop still has its scope. -/
theorem Likens.next {m₁ : Machine} {trace : Recorder} (h : W.Likens old m (W.tell m trace))
    (hnamed : ∃ s, m₁.scopes.get? W.scope = some s ∧ s.id = W.scope ∧ s.name = W.name)
    (htrace : m₁.trace = m.trace) : W.Likens old m₁ (W.tell m₁ trace) := by
  obtain ⟨-, -, hmax, hsteps⟩ := h
  rw [← htrace] at hmax hsteps
  exact ⟨rfl, hnamed, hmax, hsteps⟩

theorem Likens.alike (h : W.Likens old m m') : m.Alike m' := by
  obtain ⟨trace, rfl⟩ := h.exists_tell
  exact ⟨rfl, rfl, rfl, rfl, m.scopes.rename_nameless W.scope W.name'⟩

theorem Likens.scope_lt (h : W.Likens old m m') : W.scope < m.scopes.size := by
  obtain ⟨s, hs, -⟩ := h.named
  exact Scopes.lt_size_of_get? hs

theorem Likens.size_eq (h : W.Likens old m m') : m'.scopes.size = m.scopes.size := by
  obtain ⟨trace, rfl⟩ := h.exists_tell
  exact m.scopes.size_rename W.scope W.name'

theorem Likens.count_eq (h : W.Likens old m m') : m'.trace.count = m.trace.count := by
  obtain ⟨new, new', hnew, hnew', hboth⟩ := h.steps
  rw [m.trace.count_eq, m'.trace.count_eq, hnew, hnew', List.length_append,
    List.length_append, hboth.length_eq]

theorem Likens.hasRoom_eq (h : W.Likens old m m') : m'.trace.hasRoom = m.trace.hasRoom := by
  unfold Recorder.hasRoom
  rw [h.count_eq, h.max]

/-! ### What a step shows -/

theorem likensScope_rename
    (hnamed : ∃ s, m.scopes.get? W.scope = some s ∧ s.id = W.scope ∧ s.name = W.name)
    (id : ScopeId) :
    Option.Rel W.LikensScope (m.scopes.get? id)
      ((m.scopes.rename W.scope W.name').get? id) := by
  obtain ⟨s, hs, hid, hname⟩ := hnamed
  rw [Scopes.get?_rename]
  split
  · next heq =>
    subst heq
    rw [hs]
    exact .some (.inr ⟨hid, hname, rfl⟩)
  · cases m.scopes.get? id with
    | none => exact .none
    | some s' => exact .some (.inl rfl)

/-- The scopes that a step shows are the same but for the name. -/
theorem snapshot_rename
    (hnamed : ∃ s, m.scopes.get? W.scope = some s ∧ s.id = W.scope ∧ s.name = W.name)
    (chain : Chain) :
    List.Forall₂ W.LikensScope (m.scopes.snapshot chain)
      ((m.scopes.rename W.scope W.name').snapshot chain) := by
  unfold Scopes.snapshot
  induction chain.reverse with
  | nil => exact .nil
  | cons id rest ih =>
    have hscope := likensScope_rename hnamed id
    rw [List.filterMap_cons, List.filterMap_cons]
    generalize m.scopes.get? id = o at hscope
    generalize (m.scopes.rename W.scope W.name').get? id = o' at hscope
    cases hscope with
    | none => exact ih
    | some h => exact .cons h ih

/-- Names are no values. -/
theorem roots_eq {scopes scopes' : List Scope} (h : List.Forall₂ W.LikensScope scopes scopes')
    (stack : CallStack) : Machine.roots scopes' stack = Machine.roots scopes stack := by
  have hvalues : scopes'.flatMap (·.values.values) = scopes.flatMap (·.values.values) := by
    induction h with
    | nil => rfl
    | cons hs _ ih =>
      rw [List.flatMap_cons, List.flatMap_cons, ih]
      rcases hs with rfl | ⟨-, -, rfl⟩
      · rfl
      · rfl
  unfold Machine.roots
  rw [hvalues]

/-- A state with one more step. -/
theorem Likens.recorded (h : W.Likens old m m') (kind : StepKind) (loc : Location)
    {description description' : String}
    (hdescription : description' = description ∨ W.Owns (m.step kind loc description) ∧
      ∃ told, description = W.title ++ " loop " ++ told ∧
      description' = W.title' ++ " loop " ++ told) :
    W.Likens old (m.recorded kind loc description) (m'.recorded kind loc description') := by
  have hid : m'.trace.nextId = m.trace.nextId := by
    unfold Recorder.nextId
    rw [h.count_eq]
  obtain ⟨trace, rfl⟩ := h.exists_tell
  have hscopes := snapshot_rename h.named m.chain
  have hroots := roots_eq hscopes m.stack
  have hstep : W.LikensStep (m.step kind loc description)
      ((W.tell m trace).step kind loc description') := by
    refine ⟨?_, hscopes, hdescription⟩
    unfold Machine.step
    dsimp only [tell] at hid ⊢
    rw [hid, hroots]
  obtain ⟨new, new', hnew, hnew', hboth⟩ := h.steps
  refine ⟨rfl, h.named, h.max, _ :: new, _ :: new', ?_, ?_, .cons hstep hboth⟩
  · rw [List.cons_append, ← hnew]
    rfl
  · rw [List.cons_append, ← hnew']
    rfl

/-! ### Actions -/

theorem exists_named_declare {s : Scopes} {id : ScopeId} {name : String}
    (h : ∃ scope, s.get? id = some scope ∧ scope.id = id ∧ scope.name = name) (id' : ScopeId)
    (name' : String) (value : Value) (isConst : Bool) :
    ∃ scope, (s.declare id' name' value isConst).get? id = some scope ∧
      scope.id = id ∧ scope.name = name := by
  obtain ⟨scope, hs, hid, hname⟩ := h
  rw [Scopes.get?_declare, hs]
  split
  · exact ⟨_, rfl, hid, hname⟩
  · exact ⟨scope, rfl, hid, hname⟩

theorem Likens.changed (h : W.Likens old m m') (c : Change) :
    W.Likens old (c.apply m) (c.apply m') := by
  obtain ⟨trace, rfl⟩ := h.exists_tell
  cases c with
  | declare scope name value =>
    have happly : (Change.declare scope name value).apply (W.tell m trace) =
        W.tell ((Change.declare scope name value).apply m) trace := by
      unfold Change.apply tell
      dsimp only
      rw [Scopes.rename_declare]
    rw [happly]
    exact h.next (exists_named_declare h.named _ _ _ _) rfl
  | bind scope name value isConst =>
    have happly : (Change.bind scope name value isConst).apply (W.tell m trace) =
        W.tell ((Change.bind scope name value isConst).apply m) trace := by
      unfold Change.apply Machine.showBinding tell
      dsimp only
      rw [Scopes.rename_declare, Scopes.owner?_rename]
      split
      · rfl
      · rfl
    rw [happly]
    refine h.next ?_ (Change.kept _ m).2.1
    rw [Change.scopes_bind]
    exact exists_named_declare h.named _ _ _ _
  | _ => exact h.next h.named rfl

theorem Likens.inScope (h : W.Likens old m m') (kind : ScopeKind) (name : String)
    (chain : Chain) :
    W.Likens old (m.inScope kind name chain) (m'.inScope kind name chain) := by
  have hlt := h.scope_lt
  obtain ⟨trace, rfl⟩ := h.exists_tell
  have hopen : (W.tell m trace).inScope kind name chain =
      W.tell (m.inScope kind name chain) trace := by
    unfold Machine.inScope tell
    dsimp only
    rw [Scopes.rename_openScope _ hlt, Scopes.size_rename]
  rw [hopen]
  refine h.next ?_ rfl
  obtain ⟨scope, hs, hid, hname⟩ := h.named
  refine ⟨scope, ?_, hid, hname⟩
  unfold Machine.inScope
  rw [Scopes.get?_openScope, if_neg (Nat.ne_of_lt hlt)]
  exact hs

theorem Likens.outOfScope (h : W.Likens old m m') :
    W.Likens old m.outOfScope m'.outOfScope := by
  obtain ⟨trace, rfl⟩ := h.exists_tell
  unfold Machine.outOfScope
  dsimp only [tell]
  split
  · exact h.next h.named rfl
  · exact h

theorem Likens.pushed (h : W.Likens old m m') (shown : String) (params : Table Value)
    (loc : Location) (line : Nat) (scope : ScopeId) :
    W.Likens old (m.pushed shown params loc line scope)
      (m'.pushed shown params loc line scope) := by
  obtain ⟨trace, rfl⟩ := h.exists_tell
  exact h.next h.named rfl

theorem Likens.popped (h : W.Likens old m m') (chain : Chain) :
    W.Likens old (m.popped chain) (m'.popped chain) := by
  obtain ⟨trace, rfl⟩ := h.exists_tell
  exact h.next h.named rfl

/-! ### Computations -/

variable {α β : Type}

theorem Agree.follow {o o' : Except Stop α × Machine} (h : W.Agree old o o')
    {k k' : α → Machine → Except Stop β × Machine}
    (hk : ∀ a m m', o = (.ok a, m) → W.Likens old m m' → W.Agree old (k a m) (k' a m')) :
    W.Agree old (Run.follow o k) (Run.follow o' k') := by
  obtain ⟨r, m⟩ := o
  obtain ⟨r', m'⟩ := o'
  obtain ⟨rfl, hm⟩ : r' = r ∧ W.Likens old m m' := h
  cases r' with
  | error s => exact ⟨rfl, hm⟩
  | ok a => exact hk a m m' rfl hm

theorem Agrees.bind {x y : Run α} {f g : α → Run β} (hx : W.Agrees x y)
    (hf : ∀ a, W.Agrees (f a) (g a)) : W.Agrees (x >>= f) (y >>= g) := by
  intro L old m m' h
  rw [Run.outcome_bind, Run.outcome_bind]
  exact (hx L old m m' h).follow fun a m₁ m₁' _ h₁ => hf a L old m₁ m₁' h₁

theorem Likens.agree_record (h : W.Likens old m m') (L : RunLimits) (kind : StepKind)
    (loc : Location) {description description' : String}
    (hdescription : description' = description ∨ W.Owns (m.step kind loc description) ∧
      ∃ told, description = W.title ++ " loop " ++ told ∧
      description' = W.title' ++ " loop " ++ told) :
    W.Agree old ((record kind loc description).outcome L m)
      ((record kind loc description').outcome L m') := by
  rw [Run.outcome_record, Run.outcome_record, h.hasRoom_eq, h.max]
  split
  · exact ⟨rfl, h.recorded kind loc hdescription⟩
  · exact ⟨rfl, h⟩

theorem agrees_record (kind : StepKind) (loc : Location) (description : String) :
    W.Agrees (record kind loc description) (record kind loc description) :=
  fun L _ _ _ h => h.agree_record L kind loc (.inl rfl)

theorem agrees_change (c : Change) : W.Agrees (modify c.apply) (modify c.apply) :=
  fun _ _ _ _ h => ⟨rfl, h.changed c⟩

theorem agrees_tell (recorded : Bool) (kind : StepKind) (loc : Location)
    (words : Heap → String) :
    W.Agrees (ScriptReplay.tell recorded kind loc words)
      (ScriptReplay.tell recorded kind loc words) := by
  intro L old m m' h
  rw [Run.outcome_tell, Run.outcome_tell, h.alike.heap]
  split
  · exact agrees_record kind loc (words m.heap) L old m m' h
  · exact ⟨rfl, h⟩

theorem Agrees.block {x y : Run Completion} (hx : W.Agrees x y) (name : String) :
    W.Agrees (inLoopScope name x) (inLoopScope name y) := by
  intro L old m m' h
  rw [Run.outcome_inLoopScope, Run.outcome_inLoopScope, h.alike.chain]
  refine (hx L old _ _ (h.inScope .block name m.chain)).follow fun c m₁ m₁' _ h₁ => ?_
  exact ⟨rfl, h₁.outOfScope⟩

theorem Agrees.toldCall {w w' : Walker} {shown : String} {r : Routine} {chain : Chain}
    {args : List Value} {loc : Location} {body body' : Run Value}
    (hbind : ∀ scope, W.Agrees (bindParams w scope .empty r.params args)
      (bindParams w' scope .empty r.params args))
    (hbody : W.Agrees body body') (recorded : Bool) :
    W.Agrees (ScriptReplay.toldCall recorded w shown r chain args loc body)
      (ScriptReplay.toldCall recorded w' shown r chain args loc body') := by
  intro L old m m' h
  rw [Run.outcome_toldCall, Run.outcome_toldCall, h.alike.stack, h.alike.chain, h.size_eq]
  split
  · exact ⟨rfl, h⟩
  · refine (hbind _ L old _ _ (h.inScope .function shown chain)).follow
      fun params m₁ m₁' _ h₁ => ?_
    have hpushed := h₁.pushed shown params loc r.bodyLoc.line m.scopes.size
    refine (agrees_tell recorded .call loc _ L old _ _ hpushed).follow fun _ m₂ m₂' _ h₂ => ?_
    refine (hbody L old m₂ m₂' h₂).follow fun v m₃ m₃' _ h₃ => ?_
    refine (agrees_tell recorded .return_ loc _ L old _ _ (h₃.popped m.chain)).follow
      fun _ m₄ m₄' _ h₄ => ?_
    exact ⟨rfl, h₄⟩

/-- Computations made of the same actions, up to the ceiling on steps, have the
same outcomes. -/
theorem agrees_of_acts [Carries α] {G : Gap} {K : Stock .all} {x y : Run α} (h : Acts G K x y)
    (hG : G = .longer) : W.Agrees x y := by
  induction h with
  | pure _ => exact fun _ _ _ _ h => ⟨rfl, h⟩
  | bind _ _ ihx ihf =>
    refine (ihx hG).bind fun a => ?_
    exact ihf a Stock.everything (fun _ _ => trivial) (Carries.all (fun _ => trivial) a) hG
  | look _ ih =>
    intro L old m m' h
    rw [Run.outcome_get_bind, Run.outcome_get_bind]
    exact ih m m' Stock.everything h.alike (fun _ _ => trivial) (fun _ _ => trivial)
      (fun _ => trivial) hG L old m m' h
  | ceilings _ ih =>
    intro L old m m' h
    rw [Run.outcome_read_bind, Run.outcome_read_bind]
    exact ih L L (Gap.between_self _ L) ⟨trivial, trivial⟩ ⟨trivial, trivial⟩ hG L old m m' h
  | fail _ => exact fun _ _ _ _ h => ⟨rfl, h⟩
  | stopAtCeiling hraised => cases hraised.symm.trans hG
  | noFuel _ => exact fun _ _ _ _ h => ⟨rfl, h⟩
  | stopWithoutFuel hfuel =>
    subst hG
    exact hfuel.elim
  | record _ _ => exact agrees_record _ _ _
  | say _ _ => exact (agrees_change (.print _)).bind fun _ => agrees_record _ _ _
  | change c _ _ _ => exact agrees_change c
  | newSlot _ _ =>
    intro L old m m' h
    obtain ⟨trace, rfl⟩ := h.exists_tell
    exact ⟨rfl, h.next h.named rfl⟩
  | makeFunction _ _ =>
    intro L old m m' h
    rw [Run.outcome_makeFunction, Run.outcome_makeFunction, h.alike.chain]
    exact ⟨rfl, h⟩
  | block _ ih => exact (ih hG).block _
  | call _ _ _ _ _ _ ihbind ihbody =>
    subst hG
    exact .toldCall (fun scope => ihbind Region.all_fallbacks scope rfl) (ihbody rfl) _

end Rewording

end ScriptReplay
