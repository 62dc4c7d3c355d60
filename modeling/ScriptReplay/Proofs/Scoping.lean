/-
Scopes and frames belong together.

* `CallStack.Ordered` : frames in order, each with a scope of its own;
* `Machine.WellFormed` : linked chains, in use and in every stored function, and
  ordered frames;
* `Machine.Agrees` : the innermost function scope in use is that of the innermost frame;
* `Discipline.scoping` : every run keeps to it;
* `scopes_and_frames_agree` : so it is in all states that a run goes through, and in
  all its steps.

Design notes: while the parameters of a call are bound, its scope is in use and its frame is
not there yet.  So the agreement is part of the discipline only for programs in which nothing
is evaluated at that time.
-/
import ScriptReplay.Proofs.Chains
import ScriptReplay.Proofs.Reachable

namespace ScriptReplay

/-! ### Frames -/

/-- Frames, outermost first, have depths that count from one and numbers that go up, and no
two have the same scope.  No number is beyond the last one given out, and all scopes are among
the first `size`. -/
structure CallStack.Ordered (s : CallStack) (maxDepth size : Nat) : Prop where
  depths : s.toList.map (·.depth) = List.range' 1 s.depth
  ids : (s.toList.map (·.id)).Pairwise (· < ·)
  scopes : (s.toList.map (·.scope)).Nodup
  depth_le : s.depth ≤ maxDepth
  ids_le : ∀ id ∈ s.toList.map (·.id), id ≤ s.lastId
  scopes_lt : ∀ scope ∈ s.toList.map (·.scope), scope < size

theorem CallStack.map_eq_of_shells {s s' : CallStack}
    (h : s'.frames.map Frame.shell = s.frames.map Frame.shell) {β : Type} (f : Frame → β)
    (hf : ∀ frame, f frame.shell = f frame) : s'.toList.map f = s.toList.map f := by
  unfold CallStack.toList
  rw [List.map_reverse, List.map_reverse, Frame.map_eq_of_shells h f hf]

theorem CallStack.Ordered.of_shells {s s' : CallStack} {maxDepth size size' : Nat}
    (h : s.Ordered maxDepth size) (hs : s'.frames.map Frame.shell = s.frames.map Frame.shell)
    (hlast : ∀ id ∈ s'.toList.map (·.id), id ≤ s'.lastId) (hsize : size ≤ size') :
    s'.Ordered maxDepth size' := by
  have hdepth := CallStack.depth_eq_of_shells hs
  refine ⟨?_, ?_, ?_, hdepth ▸ h.depth_le, hlast, ?_⟩
  · rw [CallStack.map_eq_of_shells hs _ (fun _ => rfl), h.depths, hdepth]
  · rw [CallStack.map_eq_of_shells hs _ (fun _ => rfl)]
    exact h.ids
  · rw [CallStack.map_eq_of_shells hs _ (fun _ => rfl)]
    exact h.scopes
  · rw [CallStack.map_eq_of_shells hs _ (fun _ => rfl)]
    exact fun scope hmem => Nat.lt_of_lt_of_le (h.scopes_lt scope hmem) hsize

theorem CallStack.Ordered.push {s : CallStack} {maxDepth size scope : Nat}
    (h : s.Ordered maxDepth size) (hdepth : s.depth < maxDepth) (hscope : scope < size)
    (hfresh : scope ∉ s.toList.map (·.scope)) (name : String) (params : Table Value)
    (site : Option Location) (line : Nat) :
    (s.push name params site line scope).Ordered maxDepth size := by
  have hlist : (s.push name params site line scope).toList = s.toList ++
      [⟨s.lastId + 1, name, params, .empty, site, line, s.depth + 1, none, scope⟩] :=
      List.reverse_cons
  refine ⟨?_, ?_, ?_, hdepth, ?_, ?_⟩
  · rw [hlist, List.map_append, h.depths]
    show _ = List.range' 1 (s.depth + 1)
    rw [List.range'_1_concat, Nat.add_comm 1]
    rfl
  · rw [hlist, List.map_append]
    refine List.pairwise_append.2
      ⟨h.ids, List.pairwise_singleton _ _, fun id hid last hlast => ?_⟩
    rw [List.mem_singleton.1 hlast]
    exact Nat.lt_succ_of_le (h.ids_le id hid)
  · rw [hlist, List.map_append]
    refine List.nodup_append.2 ⟨h.scopes, List.pairwise_singleton _ _, fun a ha b hb => ?_⟩
    rintro rfl
    rw [List.mem_singleton.1 hb] at ha
    exact hfresh ha
  · rw [hlist, List.map_append]
    intro id hid
    rcases List.mem_append.1 hid with hid | hid
    · exact Nat.le_succ_of_le (h.ids_le id hid)
    · rw [List.mem_singleton.1 hid]
      exact Nat.le_refl _
  · rw [hlist, List.map_append]
    intro scope' hmem
    rcases List.mem_append.1 hmem with hmem | hmem
    · exact h.scopes_lt scope' hmem
    · rw [List.mem_singleton.1 hmem]
      exact hscope

/-! ### Well-formed states -/

/-- A function of the program was made in a linked chain. -/
def Value.ClosesIn (s : Scopes) : Value → Prop
  | .function (.script _ _ chain) => s.Linked chain
  | _ => True

theorem Value.ClosesIn.grown {s s' : Scopes} {v : Value} (hv : v.ClosesIn s)
    (hg : s.Grown s') : v.ClosesIn s' := by
  unfold Value.ClosesIn at hv ⊢
  split
  · exact hv.grown hg
  · exact trivial

theorem Value.ClosesIn.of_isPlain {N : Region} {s : Scopes} {v : Value} (hv : v.IsPlain N) :
    v.ClosesIn s := by
  unfold Value.ClosesIn
  split
  · exact hv.elim
  · exact trivial

/-- The scopes in use and those of all stored functions form linked chains, and the frames
are in order. -/
structure Machine.WellFormed (m : Machine) (L : RunLimits) : Prop where
  scopes : m.scopes.WellFormed
  chain : m.scopes.Linked m.chain
  closures : ∀ v, m.Holds v → v.ClosesIn m.scopes
  frames : m.stack.Ordered L.maxCallDepth m.scopes.size

/-- The innermost function scope in use is that of the innermost frame; without frames
there is none. -/
def Machine.Agrees (m : Machine) : Prop :=
  m.scopes.innermostFunction? m.chain = m.stack.top?.map (·.scope)

theorem CallStack.top?_eq_of_shells {s s' : CallStack}
    (h : s'.frames.map Frame.shell = s.frames.map Frame.shell) :
    s'.top?.map (·.scope) = s.top?.map (·.scope) := by
  have hall : ∀ s : CallStack,
      s.top?.map (·.scope) = (s.frames.map Frame.shell).head?.map (·.scope) := by
    intro s
    unfold CallStack.top?
    rw [List.head?_map, Option.map_map]
    rfl
  rw [hall, hall, h]

/-- The agreement stays as long as the same scopes are in use and the same calls
in progress. -/
theorem Machine.Agrees.next {m m' : Machine} (h : m.Agrees)
    (hlt : ∀ id ∈ m.chain, id < m.scopes.size) (hg : m.scopes.Grown m'.scopes)
    (hr : m.Restored m') : m'.Agrees := by
  unfold Machine.Agrees
  rw [hr.chain, Scopes.innermostFunction?_grown hg hlt, CallStack.top?_eq_of_shells hr.frames]
  exact h

/-! ### The discipline -/

/-- A step that shows a well-formed state, in which scopes and frames agree unless parameters
have fallbacks. -/
def Step.Shows (s : Step) (N : Region) (L : RunLimits) : Prop :=
  ∃ m : Machine, m.WellFormed L ∧ (N.NoFallbacks → m.Agrees) ∧
    s = m.step s.kind s.loc s.description

/-- A well-formed state with functions of a region and steps that show such states. -/
structure Machine.Formed (m : Machine) (N : Region) (L : RunLimits) :
    Prop extends m.WellFormed L where
  legal : ∀ v, m.Holds v → v.Legal N
  steps : ∀ s ∈ m.trace.newest, s.Shows N L

variable {N : Region} {L : RunLimits} {m m' : Machine}

/-- A state that holds nothing new but values of well-formed functions. -/
theorem Machine.Formed.next (h : m.Formed N L) (hscopes : m'.scopes.WellFormed)
    (hg : m.scopes.Grown m'.scopes) (hchain : m'.scopes.Linked m'.chain)
    (hheld : ∀ v, m'.Holds v → m.Holds v ∨ v.ClosesIn m'.scopes ∧ v.Legal N)
    (hframes : m'.stack.Ordered L.maxCallDepth m'.scopes.size)
    (hsteps : m'.trace.newest = m.trace.newest) : m'.Formed N L := by
  refine ⟨⟨hscopes, hchain, fun v hv => ?_, hframes⟩, fun v hv => ?_, hsteps ▸ h.steps⟩
  · rcases hheld v hv with hv | hv
    · exact (h.closures v hv).grown hg
    · exact hv.1
  · rcases hheld v hv with hv | hv
    · exact h.legal v hv
    · exact hv.2

theorem Change.scopes_eq (c : Change) (m : Machine) :
    (c.apply m).scopes = m.scopes ∨
      ∃ scope name value isConst,
        (c.apply m).scopes = m.scopes.declare scope name value isConst := by
  cases c with
  | declare scope name value => exact .inr ⟨scope, name, value, false, rfl⟩
  | bind scope name value isConst =>
    exact .inr ⟨scope, name, value, isConst, scopes_bind m scope name value isConst⟩
  | _ => exact .inl rfl

theorem Change.scopes_grown (c : Change) (m : Machine) :
    m.scopes.Grown (c.apply m).scopes := by
  rcases c.scopes_eq m with heq | ⟨scope, name, value, isConst, heq⟩
  · exact heq ▸ .refl m.scopes
  · exact heq ▸ m.scopes.grown_declare scope name value isConst

theorem Change.scopes_wellFormed (c : Change) (h : m.scopes.WellFormed) :
    (c.apply m).scopes.WellFormed := by
  rcases c.scopes_eq m with heq | ⟨scope, name, value, isConst, heq⟩
  · exact heq ▸ h
  · exact heq ▸ h.declare scope name value isConst

theorem Change.lastId_eq (c : Change) (m : Machine) :
    (c.apply m).stack.lastId = m.stack.lastId := by
  cases c with
  | bind scope name value isConst =>
    obtain ⟨stack, hlast, happly⟩ := exists_apply_bind m scope name value isConst
    rw [happly]
    exact hlast
  | setResult value =>
    show (m.stack.setResult value).lastId = m.stack.lastId
    unfold CallStack.setResult
    split
    · rfl
    · rfl
  | _ => rfl

theorem Machine.Formed.changed (h : m.Formed N L) (c : Change)
    (hv : ∀ v ∈ c.values, v.ClosesIn m.scopes ∧ v.Legal N) : (c.apply m).Formed N L := by
  obtain ⟨hchain, htrace, -⟩ := c.kept m
  have hg := c.scopes_grown m
  have hshells := (c.restored m).frames
  refine h.next (c.scopes_wellFormed h.scopes) hg (hchain ▸ h.chain.grown hg)
    (fun v hold => ?_) ?_ (by rw [htrace])
  · rcases hold.of_apply with hold | hnew
    · exact .inl hold
    · exact .inr ⟨(hv v hnew).1.grown hg, (hv v hnew).2⟩
  · refine h.frames.of_shells hshells ?_ hg.size_le
    rw [CallStack.map_eq_of_shells hshells _ (fun _ => rfl), c.lastId_eq m]
    exact h.frames.ids_le

theorem Machine.Formed.inScope (h : m.Formed N L) {kind : ScopeKind} (hk : kind ≠ .global)
    (name : String) {chain : Chain} (hchain : m.scopes.Linked chain) :
    (m.inScope kind name chain).Formed N L := by
  have hg := m.scopes.grown_openScope kind name chain
  refine h.next (h.scopes.openScope hk name chain) hg (hchain.openScope h.scopes kind name)
    (fun v hold => .inl hold.of_inScope) ?_ rfl
  exact h.frames.of_shells rfl h.frames.ids_le hg.size_le

theorem Machine.Formed.recorded (h : m.Formed N L) (hagrees : N.NoFallbacks → m.Agrees)
    (kind : StepKind) (loc : Location) (description : String) :
    (m.recorded kind loc description).Formed N L := by
  have hheld : ∀ v, (m.recorded kind loc description).Holds v → m.Holds v :=
    fun v hv => hv.of_eq rfl rfl (fun _ hf => hf) rfl
  refine ⟨⟨h.scopes, h.chain, fun v hv => h.closures v (hheld v hv), h.frames⟩,
    fun v hv => h.legal v (hheld v hv), fun s hs => ?_⟩
  rcases List.mem_cons.1 hs with rfl | hs
  · exact ⟨m, h.toWellFormed, hagrees, rfl⟩
  · exact h.steps s hs

theorem Machine.Formed.pushed (h : m.Formed N L) {params : Table Value}
    (hp : ∀ v ∈ params.values, v.ClosesIn m.scopes ∧ v.Legal N) {scope : ScopeId}
    (hdepth : m.stack.depth < L.maxCallDepth) (hscope : scope < m.scopes.size)
    (hfresh : scope ∉ m.stack.toList.map (·.scope)) (shown : String) (loc : Location)
    (line : Nat) : (m.pushed shown params loc line scope).Formed N L :=
  h.next h.scopes (.refl _) h.chain (fun v hold => hold.of_pushed.imp id (hp v))
    (h.frames.push hdepth hscope hfresh shown params (some loc) line) rfl

theorem CallStack.ids_le_of_back {s s' : CallStack} (h : s' = s ∨ s' = s.pop)
    (hids : ∀ id ∈ s.toList.map (·.id), id ≤ s.lastId) :
    ∀ id ∈ s'.toList.map (·.id), id ≤ s'.lastId := by
  rcases h with rfl | rfl
  · exact hids
  · intro id hid
    obtain ⟨f, hf, rfl⟩ := List.mem_map.1 hid
    have hmem : f ∈ s.frames := List.mem_of_mem_tail (List.mem_reverse.1 hf)
    exact hids f.id (List.mem_map_of_mem (List.mem_reverse.2 hmem))

/-- The scopes and frames from before, in a state that has grown since. -/
theorem Machine.Formed.back (h : m.Formed N L) (h' : m'.Formed N L)
    (hg : m.scopes.Grown m'.scopes) {stack : CallStack}
    (hstack : stack = m'.stack ∨ stack = m'.stack.pop)
    (hr : m.Restored { m' with chain := m.chain, stack := stack }) :
    Machine.Formed { m' with chain := m.chain, stack := stack } N L := by
  refine h'.next h'.scopes (.refl _) (h.chain.grown hg)
    (fun v hold => .inl (hold.of_back hstack)) ?_ rfl
  exact h.frames.of_shells hr.frames
    (CallStack.ids_le_of_back hstack h'.frames.ids_le) hg.size_le

/-- A block scope does not change which function scope is the innermost. -/
theorem Machine.Agrees.opened (h : m.Agrees) (hlt : ∀ id ∈ m.chain, id < m.scopes.size)
    (name : String) : (m.inScope .block name m.chain).Agrees := by
  have hg := m.scopes.grown_openScope .block name m.chain
  show (m.scopes.openScope .block name m.chain).2.innermostFunction?
    (m.scopes.size :: m.chain) = m.stack.top?.map (·.scope)
  -- The search passes over the new scope, which is no function scope.
  rw [← h, ← Scopes.innermostFunction?_grown hg hlt]
  unfold Scopes.innermostFunction?
  rw [List.find?_cons, Scopes.get?_openScope, if_pos rfl]
  rfl

/-- The new scope of a call and its frame belong together. -/
theorem Machine.agrees_pushed {chain : Chain} {shown : String}
    (hg : (m.inScope .function shown chain).scopes.Grown m'.scopes)
    (hchain : m'.chain = m.scopes.size :: chain) (params : Table Value) (loc : Location)
    (line : Nat) : (m'.pushed shown params loc line m.scopes.size).Agrees := by
  have hkind : (m'.scopes.get? m.scopes.size).any (·.kind == .function) = true := by
    rw [hg.any_eq _ (fun _ => rfl) (by simp [Machine.inScope, Scopes.openScope, Scopes.size])]
    unfold Machine.inScope
    rw [Scopes.get?_openScope, if_pos rfl]
    rfl
  show m'.scopes.innermostFunction? m'.chain = some m.scopes.size
  unfold Scopes.innermostFunction?
  rw [hchain, List.find?_cons, hkind]

/-- Chains are linked, frames in order, and the two agree. -/
def Discipline.scoping (p : Program) : Discipline p.region where
  inv L m := m.Formed p.region L ∧ (p.region.NoFallbacks → m.Agrees)
  bare L m := m.Formed p.region L
  later m m' := m.scopes.Grown m'.scopes
  sound m v := v.ClosesIn m.scopes ∧ v.Legal p.region
  later_refl m := .refl m.scopes
  later_trans := .trans
  later_frames m _ _ := .refl m.scopes
  sound_later hg hv := ⟨hv.1.grown hg, hv.2⟩
  sound_plain hv := ⟨.of_isPlain hv, .of_isPlain hv⟩
  sound_legal hv := hv.2
  sound_held h hv := ⟨h.1.closures _ hv, h.1.legal _ hv⟩
  sound_function h hr hname := ⟨h.1.chain, hr, hname⟩
  chain_ne_nil h := h.1.chain.ne_nil
  recorded description h _ _ _ := ⟨⟨h.1.recorded h.2 _ _ description, h.2⟩, .refl _⟩
  changed {_ m} c h hv _ := by
    have hg := c.scopes_grown m
    refine ⟨⟨h.1.changed c hv, fun hN => ?_⟩, hg⟩
    exact (h.2 hN).next (h.1.chain.lt_size h.1.scopes) hg (c.restored m)
  allocated {_ m s} h hv _ := by
    refine ⟨⟨?_, h.2⟩, .refl _, ?_⟩
    · exact h.1.next h.1.scopes (.refl _) h.1.chain
        (fun v hold => hold.of_allocated.imp id (hv v)) h.1.frames rfl
    · cases s with
      | _ => exact ⟨trivial, trivial⟩
  opened name h := by
    refine ⟨⟨h.1.inScope (by decide) name h.1.chain, fun hN => ?_⟩,
      Scopes.grown_openScope _ _ name _⟩
    exact (h.2 hN).opened (h.1.chain.lt_size h.1.scopes) name
  entered shown h hf :=
    ⟨h.1.inScope (by decide) shown hf.1, Scopes.grown_openScope _ _ shown _⟩
  bare_iff hN := ⟨fun h => ⟨h, fun hN' => absurd hN' hN⟩, And.left⟩
  bare_declared name h _ hv := by
    refine ⟨h.changed (.declare _ name _) fun u hu => ?_, Change.scopes_grown _ _⟩
    rw [List.mem_singleton.1 hu]
    exact hv
  pushed {_ m m₁ _ _ _ shown _} loc line h _ hdepth h₁ hg hr hp _ := by
    have hscopes : m₁.stack.toList.map (·.scope) = m.stack.toList.map (·.scope) :=
      CallStack.map_eq_of_shells hr.frames _ (fun _ => rfl)
    refine ⟨h₁.pushed hp ?_ ?_ ?_ shown loc line, fun _ =>
      Machine.agrees_pushed hg hr.chain _ loc line⟩
    · rw [CallStack.depth_eq_of_shells hr.frames]
      exact hdepth
    · refine Nat.lt_of_lt_of_le ?_ hg.size_le
      simp [Machine.inScope, Scopes.openScope, Scopes.size]
    · -- The scope is new: all frames have scopes from before it was opened.
      rw [hscopes]
      exact fun hmem => Nat.lt_irrefl _ (h.1.frames.scopes_lt _ hmem)
  back {_ m m' _} h h' hg hstack hr := by
    refine ⟨h.1.back h'.1 hg hstack hr, fun hN => ?_⟩
    exact (h.2 hN).next (h.1.chain.lt_size h.1.scopes) hg hr

/-! ### Runs -/

theorem Machine.formed_initial (N : Region) (L : RunLimits) :
    (Machine.initial L).Formed N L := by
  refine ⟨⟨Scopes.wellFormed_initial, Scopes.linked_global _, fun v hv => ?_, ?_⟩,
    fun v hv => ?_, fun s hs => ?_⟩
  · exact (Machine.Holds.not_initial L hv).elim
  · exact ⟨rfl, .nil, .nil, Nat.zero_le _, fun _ h => (List.not_mem_nil h).elim,
      fun _ h => (List.not_mem_nil h).elim⟩
  · exact (Machine.Holds.not_initial L hv).elim
  · exact (List.not_mem_nil hs).elim

/-- In all states that a run goes through, and in all that its steps show, chains are linked
and frames in order.  Without fallbacks the innermost function scope that a step shows is that
of its innermost frame, and what is bound in a function is shown there. -/
theorem scopes_and_frames_agree (L : RunLimits) (p : Program) :
    (∀ m, Reachable L p m → m.WellFormed L) ∧
    ∀ fuel e, Execution.ofProgram? L fuel p = some e → ∀ s ∈ e.steps,
      ∃ m : Machine, m.WellFormed L ∧ s = m.step s.kind s.loc s.description ∧
        m.scopes.functionScope m.chain =
          (m.chain.head?.bind m.scopes.owner?).getD Scopes.globalId ∧
        (p.region.NoFallbacks →
          (s.scopes.reverse.find? (·.kind == .function)).map (·.id) =
            s.stack.top?.map (·.scope)) := by
  have hinitial : (Discipline.scoping p).inv L (.initial L) :=
    ⟨Machine.formed_initial _ L, fun _ => rfl⟩
  have hbody : ∀ s ∈ p.body, p.region.has (.stmt s) := fun _ hs => Program.region_stmt hs
  refine ⟨fun m hm => ?_, fun fuel e he s hs => ?_⟩
  · exact ((Discipline.scoping p).inv_of_reachable hbody hinitial hm).1.toWellFormed
  · have hend := (Discipline.scoping p).inv_runFrom hbody hinitial fuel
    obtain ⟨m, hsteps, hm⟩ := Execution.exists_machine he
    -- A failure is told in a step of its own, which shows the state in which the run ended.
    have hformed : m.Formed p.region L := by
      rcases hm with rfl | ⟨loc, description, rfl⟩
      · exact hend.1
      · exact hend.1.recorded hend.2 .error loc description
    rw [hsteps] at hs
    obtain ⟨shown, hshown, hagrees, hstep⟩ := hformed.steps s (List.mem_reverse.1 hs)
    refine ⟨shown, hshown, hstep, Scopes.functionScope_eq_owner hshown.scopes hshown.chain,
      fun hN => ?_⟩
    rw [hstep]
    exact (Scopes.find?_snapshot hshown.scopes shown.chain).trans (hagrees hN)

/-- A function that gives null. -/
def givingNull : Routine :=
  ⟨none, [], .value (.null default), true, false, default, default⟩

/-- A function that is called where it is made. -/
def calling : Program :=
  ⟨[.expr (.call (.function givingNull default) [] default) default], default⟩

theorem calling_noFallbacks : calling.region.NoFallbacks := by
  intro r hr q hq
  exact Option.isNone_iff_eq_none.1
    (Program.params_pass (·.fallback.isNone) 6 (by decide +kernel) hr q hq)

theorem calling_agrees : ∃ m e, Reachable {} calling m ∧ m.stack.depth = 1 ∧ m.WellFormed {} ∧
    Execution.ofProgram? {} 6 calling = some e ∧ ∃ s ∈ e.steps, s.stack.depth = 1 ∧
      (s.scopes.reverse.find? (·.kind == .function)).map (·.id) =
        s.stack.top?.map (·.scope) := by
  obtain ⟨hstates, hsteps⟩ := scopes_and_frames_agree {} calling
  obtain ⟨m, hm, hdepth⟩ : ∃ m, Reachable {} calling m ∧ m.stack.depth = 1 :=
    ⟨_, ⟨(·.stack.depth == 1), 6, rfl⟩, by decide +kernel⟩
  have hrun :
      (Execution.ofProgram? {} 6 calling).any (·.steps.any (·.stack.depth == 1)) = true := by
    decide +kernel
  obtain ⟨e, he, hany⟩ := (Option.any_eq_true _ _).1 hrun
  obtain ⟨s, hs, hone⟩ := List.any_eq_true.1 hany
  obtain ⟨_, -, -, -, hagrees⟩ := hsteps 6 e he s hs
  exact ⟨m, e, hm, hdepth, hstates m hm, he, s, hs, beq_iff_eq.1 hone,
    hagrees calling_noFallbacks⟩

end ScriptReplay
