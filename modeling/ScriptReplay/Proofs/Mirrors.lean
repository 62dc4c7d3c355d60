/-
Frames and the scopes that they mirror.

A frame shows the names of its call; the bindings are in the scope of the call and in
those of its blocks.  Every write to one of these scopes is repeated in the frame, under
the name alone.

* `Frame.Mirrors` : every name of the call is shown, with the value that it has in one of
  these scopes;
* `Discipline.mirroring` : every run keeps to it if parameters have no fallbacks;
* `frames_mirror_scopes` : so a frame shows the value of every name that no block of the call
  binds as well;
* `covering_and_rewriting_differ` : in the other two cases a frame can show another value.

Design notes: which of the scopes a value comes from depends on which was written last, so the
invariant only says that there is one.  A name that just one of them binds leaves no choice.
-/
import ScriptReplay.Proofs.Scoping
import ScriptReplay.Proofs.Shown

namespace ScriptReplay

/-! ### Owners in scopes that grow -/

namespace Scopes

theorem exists_get?_of_owner? {s : Scopes} {id owner : ScopeId}
    (h : s.owner? id = some owner) : ∃ scope, s.get? id = some scope := by
  unfold owner? ownerWithin at h
  cases hscope : s.get? id with
  | none =>
    rw [hscope] at h
    cases h
  | some scope => exact ⟨scope, rfl⟩

/-- A walk through parents that finds an owner is the same in scopes that have grown. -/
theorem Grown.ownerWithin {s s' : Scopes} (h : s.Grown s') {id owner : ScopeId}
    {bound bound' : Nat} (hle : bound ≤ bound') (ho : s.ownerWithin id bound = some owner) :
    s'.ownerWithin id bound' = some owner := by
  induction bound generalizing id bound' with
  | zero => cases ho
  | succ bound ih =>
    obtain ⟨bound', rfl⟩ := Nat.exists_eq_add_one_of_ne_zero (show bound' ≠ 0 by omega)
    unfold Scopes.ownerWithin at ho ⊢
    cases hscope : s.get? id with
    | none =>
      rw [hscope] at ho
      cases ho
    | some scope =>
      obtain ⟨scope', hscope', heq⟩ := h.shell id scope hscope
      have hid : scope'.id = scope.id := (congrArg Scope.id heq :)
      have hkind : scope'.kind = scope.kind := (congrArg Scope.kind heq :)
      have hparent : scope'.parent = scope.parent := (congrArg Scope.parent heq :)
      simp only [hscope, hscope', hid, hkind, hparent] at ho ⊢
      split at ho
      · exact ho
      · cases ho
      · exact ih (by omega) ho
      · cases ho

theorem Grown.owner? {s s' : Scopes} (h : s.Grown s') {id owner : ScopeId}
    (ho : s.owner? id = some owner) : s'.owner? id = some owner :=
  h.ownerWithin (Nat.succ_le_succ h.size_le) ho

/-- A function scope belongs to itself. -/
theorem owner?_function {s : Scopes} {id : ScopeId} {scope : Scope}
    (h : s.get? id = some scope) (hkind : scope.kind = .function) (hid : scope.id = id) :
    s.owner? id = some id := by
  unfold owner? ownerWithin
  simp only [h, hkind, hid]

theorem valueAt?_declare_of_ne (s : Scopes) {id id' : ScopeId} (h : id ≠ id')
    (name name' : String) (value : Value) (isConst : Bool) :
    (s.declare id name value isConst).valueAt? id' name' = s.valueAt? id' name' := by
  unfold valueAt?
  rw [get?_declare, if_neg h]

theorem valueAt?_openScope {s : Scopes} {id : ScopeId} {scope : Scope}
    (h : s.get? id = some scope) (kind : ScopeKind) (shown : String) (chain : Chain)
    (name : String) :
    (s.openScope kind shown chain).2.valueAt? id name = s.valueAt? id name := by
  unfold valueAt?
  rw [get?_openScope, if_neg (Nat.ne_of_lt (lt_size_of_get? h))]

end Scopes

/-! ### What a frame shows -/

theorem Frame.scope_bind (f : Frame) (name : String) (value : Value) :
    (f.bind name value).scope = f.scope := by
  unfold Frame.bind
  split
  · rfl
  · rfl

/-- No parameter is shown among the other names. -/
def Frame.Apart (f : Frame) : Prop :=
  ∀ name, f.params.contains name = true → f.locals.get? name = none

theorem Frame.Apart.bind {f : Frame} (h : f.Apart) (name : String) (value : Value) :
    (f.bind name value).Apart := by
  intro name' hname
  unfold Frame.bind at hname ⊢
  split at hname
  · next hparam =>
    rw [if_pos hparam]
    by_cases heq : name' = name
    · rw [heq]
      exact h name hparam
    · refine h name' ?_
      simpa [Table.contains, heq] using hname
  · next hparam =>
    rw [if_neg hparam]
    have hne : name' ≠ name := by
      rintro rfl
      exact hparam hname
    simpa [hne] using h name' hname

theorem Frame.Apart.get?_bind {f : Frame} (h : f.Apart) (name name' : String)
    (value : Value) :
    (f.bind name value).get? name' = if name' = name then some value else f.get? name' := by
  unfold Frame.bind Frame.get?
  split
  · next hparam =>
    by_cases heq : name' = name
    · simp [heq, h name hparam]
    · simp [heq]
  · by_cases heq : name' = name
    · simp [heq]
    · simp [heq]

/-- A frame that mirrors the scopes of its call: it shows every name that the scope of the
call binds, and what it shows is the value of the name in the scope of the call or in one of
its blocks. -/
structure Frame.Mirrors (f : Frame) (s : Scopes) : Prop where
  owner : s.owner? f.scope = some f.scope
  apart : f.Apart
  covered : ∀ name value, s.valueAt? f.scope name = some value → (f.get? name).isSome
  shown : ∀ name value, f.get? name = some value →
    ∃ id, s.owner? id = some f.scope ∧ s.valueAt? id name = some value

namespace Frame.Mirrors

variable {f : Frame} {s : Scopes}

/-- A frame that shows the same, in scopes that have grown and bind the same in the scopes
of the call. -/
theorem next (h : f.Mirrors s) {f' : Frame} {s' : Scopes} (hscope : f'.scope = f.scope)
    (hparams : f'.params = f.params) (hlocals : f'.locals = f.locals) (hg : s.Grown s')
    (hvalues : ∀ id name, s.owner? id = some f.scope →
      s'.valueAt? id name = s.valueAt? id name) :
    f'.Mirrors s' := by
  have hget : ∀ name, f'.get? name = f.get? name := by
    intro name
    unfold Frame.get?
    rw [hparams, hlocals]
  refine ⟨?_, ?_, fun name value hv => ?_, fun name value hv => ?_⟩
  · rw [hscope]
    exact hg.owner? h.owner
  · intro name hname
    rw [hlocals]
    rw [hparams] at hname
    exact h.apart name hname
  · rw [hscope, hvalues _ name h.owner] at hv
    rw [hget]
    exact h.covered name value hv
  · rw [hget] at hv
    obtain ⟨id, ho, hv⟩ := h.shown name value hv
    exact ⟨id, hscope ▸ hg.owner? ho, (hvalues id name ho).trans hv⟩

theorem openScope (h : f.Mirrors s) (kind : ScopeKind) (shown : String) (chain : Chain) :
    f.Mirrors (s.openScope kind shown chain).2 := by
  refine h.next rfl rfl rfl (s.grown_openScope kind shown chain) fun id name ho => ?_
  obtain ⟨scope, hscope⟩ := Scopes.exists_get?_of_owner? ho
  exact Scopes.valueAt?_openScope hscope kind shown chain name

/-- A write to a scope of another call, or of none. -/
theorem declare_other (h : f.Mirrors s) {id : ScopeId} (name : String) (value : Value)
    (isConst : Bool) (hother : (s.declare id name value isConst).owner? id ≠ some f.scope) :
    f.Mirrors (s.declare id name value isConst) := by
  have hg := s.grown_declare id name value isConst
  refine h.next rfl rfl rfl hg fun id' name' ho => ?_
  refine s.valueAt?_declare_of_ne ?_ name name' value isConst
  rintro rfl
  exact hother (hg.owner? ho)

/-- A write to a scope of the call, which the frame repeats. -/
theorem declare_own (h : f.Mirrors s) {id : ScopeId} (name : String) (value : Value)
    (isConst : Bool) (hown : (s.declare id name value isConst).owner? id = some f.scope) :
    (f.bind name value).Mirrors (s.declare id name value isConst) := by
  have hg := s.grown_declare id name value isConst
  obtain ⟨scope, hscope⟩ : ∃ scope, s.get? id = some scope := by
    obtain ⟨_, hget⟩ := Scopes.exists_get?_of_owner? hown
    refine Scopes.exists_get?_of_lt ?_
    rw [← s.size_declare id name value isConst]
    exact Scopes.lt_size_of_get? hget
  have hvalue := fun id' name' => Scopes.valueAt?_declare hscope id' name name' value isConst
  have hget := fun name' => h.apart.get?_bind name name' value
  refine ⟨?_, h.apart.bind name value, fun name' value' hv => ?_, fun name' value' hv => ?_⟩
  · rw [f.scope_bind]
    exact hg.owner? h.owner
  · rw [hget]
    by_cases hname : name' = name
    · rw [if_pos hname]
      rfl
    · rw [f.scope_bind, hvalue, if_neg fun heq => hname heq.2] at hv
      rw [if_neg hname]
      exact h.covered name' value' hv
  · rw [hget] at hv
    rw [f.scope_bind]
    by_cases hname : name' = name
    · -- The last write is the one that is shown.
      rw [if_pos hname] at hv
      refine ⟨id, hown, ?_⟩
      rw [hvalue, if_pos ⟨rfl, hname⟩]
      exact hv
    · rw [if_neg hname] at hv
      obtain ⟨id', ho, hv⟩ := h.shown name' value' hv
      refine ⟨id', hg.owner? ho, ?_⟩
      rw [hvalue, if_neg fun heq => hname heq.2]
      exact hv

/-- A frame whose parameters are all that the scope of its call binds. -/
theorem of_shows {params : Table Value} (howner : s.owner? f.scope = some f.scope)
    (hparams : f.params = params) (hlocals : f.locals = .empty) (h : params.Shows s f.scope) :
    f.Mirrors s := by
  have hget : ∀ name, f.get? name = s.valueAt? f.scope name := by
    intro name
    unfold Frame.get?
    rw [hlocals, hparams, ← h name]
    rfl
  refine ⟨howner, fun name _ => ?_, fun name value hv => ?_, fun name value hv => ?_⟩
  · rw [hlocals]
    rfl
  · rw [hget, hv]
    rfl
  · exact ⟨f.scope, howner, (hget name).symm.trans hv⟩

/-- A name that no block of the call binds is shown with its value in the scope
of the call. -/
theorem get?_eq (h : f.Mirrors s) {name : String} {value : Value}
    (hv : s.valueAt? f.scope name = some value)
    (hblocks : ∀ id, s.owner? id = some f.scope → id ≠ f.scope → s.valueAt? id name = none) :
    f.get? name = some value := by
  obtain ⟨shown, hshown⟩ := Option.isSome_iff_exists.1 (h.covered name value hv)
  obtain ⟨id, ho, hid⟩ := h.shown name shown hshown
  by_cases heq : id = f.scope
  · rw [heq, hv] at hid
    rw [hshown, ← hid]
  · rw [hblocks id ho heq] at hid
    cases hid

end Frame.Mirrors

/-! ### The discipline -/

/-- All frames mirror the scopes of their calls. -/
def Machine.Mirrored (m : Machine) : Prop :=
  ∀ f ∈ m.stack.frames, f.Mirrors m.scopes

variable {m m' : Machine}

/-- A frame after a write to a call is one from before, of another call, or the one of that
call with the write repeated in it. -/
theorem CallStack.mem_modifyOwner_of_nodup {scope : ScopeId} {g : Frame → Frame}
    {frames : List Frame} {f' : Frame} (hnodup : (frames.map (·.scope)).Nodup)
    (h : f' ∈ CallStack.modifyOwner scope g frames) :
    (f' ∈ frames ∧ f'.scope ≠ scope) ∨ ∃ f ∈ frames, f.scope = scope ∧ f' = g f := by
  induction frames with
  | nil => cases h
  | cons f rest ih =>
    obtain ⟨hfresh, hrest⟩ := List.nodup_cons.1 hnodup
    unfold CallStack.modifyOwner at h
    split at h
    · next heq =>
      rcases List.mem_cons.1 h with rfl | h
      · exact .inr ⟨f, List.mem_cons_self, heq, rfl⟩
      · refine .inl ⟨List.mem_cons_of_mem _ h, fun hscope => hfresh ?_⟩
        exact List.mem_map.2 ⟨f', h, hscope.trans heq.symm⟩
    · next hne =>
      rcases List.mem_cons.1 h with rfl | h
      · exact .inl ⟨List.mem_cons_self, hne⟩
      · rcases ih hrest h with ⟨hmem, hscope⟩ | ⟨f₀, hmem, hscope, heq⟩
        · exact .inl ⟨List.mem_cons_of_mem _ hmem, hscope⟩
        · exact .inr ⟨f₀, List.mem_cons_of_mem _ hmem, hscope, heq⟩

/-- The same frames but for their results, in the same scopes. -/
theorem Machine.Mirrored.of_frames (h : m.Mirrored) (hscopes : m'.scopes = m.scopes)
    (hframes : ∀ f' ∈ m'.stack.frames, ∃ f ∈ m.stack.frames,
      f'.scope = f.scope ∧ f'.params = f.params ∧ f'.locals = f.locals) : m'.Mirrored := by
  intro f' hf'
  obtain ⟨f, hf, hscope, hparams, hlocals⟩ := hframes f' hf'
  rw [hscopes]
  exact (h f hf).next hscope hparams hlocals (.refl _) fun _ _ _ => rfl

/-- A binding that is written in its scope and in the frame of its call. -/
theorem Machine.Mirrored.bind (h : m.Mirrored) (hnodup : (m.stack.frames.map (·.scope)).Nodup)
    (scope : ScopeId) (name : String) (value : Value) (isConst : Bool) :
    ((Change.bind scope name value isConst).apply m).Mirrored := by
  unfold Change.apply Machine.showBinding
  dsimp only
  split
  · next owner howner =>
    intro f' hf'
    rcases CallStack.mem_modifyOwner_of_nodup hnodup hf' with ⟨hf, hne⟩ | ⟨f, hf, rfl, rfl⟩
    · refine (h f' hf).declare_other name value isConst ?_
      rw [howner]
      exact fun heq => hne (Option.some.inj heq).symm
    · exact (h f hf).declare_own name value isConst howner
  · next howner =>
    intro f hf
    refine (h f hf).declare_other name value isConst ?_
    rw [howner]
    simp

theorem Machine.Mirrored.changed (h : m.Mirrored)
    (hnodup : (m.stack.frames.map (·.scope)).Nodup) {c : Change}
    (hc : ∀ scope name value, c ≠ .declare scope name value) : (c.apply m).Mirrored := by
  cases c with
  | declare scope name value => exact absurd rfl (hc scope name value)
  | bind scope name value isConst => exact h.bind hnodup scope name value isConst
  | setResult value =>
    refine h.of_frames rfl fun f' hf' => ?_
    change f' ∈ (m.stack.setResult value).frames at hf'
    unfold CallStack.setResult at hf'
    split at hf'
    · exact ⟨f', hf', rfl, rfl, rfl⟩
    · next f rest hframes =>
      rw [hframes]
      rcases List.mem_cons.1 hf' with rfl | hf'
      · exact ⟨f, List.mem_cons_self, rfl, rfl, rfl⟩
      · exact ⟨f', List.mem_cons_of_mem _ hf', rfl, rfl, rfl⟩
  | _ => exact h.of_frames rfl fun f' hf' => ⟨f', hf', rfl, rfl, rfl⟩

theorem Machine.Mirrored.inScope (h : m.Mirrored) (kind : ScopeKind) (shown : String)
    (chain : Chain) : (m.inScope kind shown chain).Mirrored :=
  fun f hf => (h f hf).openScope kind shown chain

/-- The innermost scope in use is that of a call without a frame. -/
def Machine.Frameless (m : Machine) : Prop :=
  ∀ scope, m.chain.head? = some scope →
    m.scopes.owner? scope = some scope ∧ ∀ f ∈ m.stack.frames, f.scope ≠ scope

theorem Machine.Mirrored.frameless (h : m.Mirrored) (shown : String) (chain : Chain) :
    (m.inScope .function shown chain).Frameless := by
  intro scope hscope
  cases hscope
  refine ⟨?_, fun f hf => ?_⟩
  · have hget : (m.scopes.openScope .function shown chain).2.get? m.scopes.size = _ :=
      (m.scopes.get?_openScope .function shown chain m.scopes.size).trans (if_pos rfl)
    exact Scopes.owner?_function hget rfl rfl
  · obtain ⟨_, hget⟩ := Scopes.exists_get?_of_owner? (h f hf).owner
    exact Nat.ne_of_lt (Scopes.lt_size_of_get? hget)

/-- A parameter is bound in the scope of a call that has no frame yet. -/
theorem Machine.Mirrored.declared (h : m.Mirrored) (hbare : m.Frameless) {scope : ScopeId}
    (hscope : m.chain.head? = some scope) (name : String) (value : Value) :
    ((Change.declare scope name value).apply m).Mirrored ∧
      ((Change.declare scope name value).apply m).Frameless := by
  have hg := m.scopes.grown_declare scope name value false
  obtain ⟨howner, hfresh⟩ := hbare scope hscope
  refine ⟨fun f hf => ?_, fun scope' hscope' => ?_⟩
  · refine (h f hf).declare_other name value false ?_
    rw [hg.owner? howner]
    exact fun heq => hfresh f hf (Option.some.inj heq).symm
  · obtain ⟨howner', hfresh'⟩ := hbare scope' hscope'
    exact ⟨hg.owner? howner', hfresh'⟩

theorem CallStack.Ordered.nodup_frames {s : CallStack} {maxDepth size : Nat}
    (h : s.Ordered maxDepth size) : (s.frames.map (·.scope)).Nodup := by
  have hnodup := h.scopes
  unfold CallStack.toList at hnodup
  rw [List.map_reverse] at hnodup
  exact (List.pairwise_reverse.1 hnodup).imp Ne.symm

/-- Frames mirror the scopes of their calls, unless parameters have fallbacks. -/
def Discipline.mirroring (p : Program) : Discipline p.region where
  inv L m := (Discipline.scoping p).inv L m ∧ (p.region.NoFallbacks → m.Mirrored)
  bare L m :=
    (Discipline.scoping p).bare L m ∧ (p.region.NoFallbacks → m.Mirrored ∧ m.Frameless)
  later := (Discipline.scoping p).later
  sound := (Discipline.scoping p).sound
  later_refl := (Discipline.scoping p).later_refl
  later_trans := (Discipline.scoping p).later_trans
  later_frames := (Discipline.scoping p).later_frames
  sound_later := (Discipline.scoping p).sound_later
  sound_plain := (Discipline.scoping p).sound_plain
  sound_legal := (Discipline.scoping p).sound_legal
  sound_held h hv := (Discipline.scoping p).sound_held h.1 hv
  sound_function h hr hname := (Discipline.scoping p).sound_function h.1 hr hname
  chain_ne_nil h := (Discipline.scoping p).chain_ne_nil h.1
  recorded description h hk hloc hroom := by
    obtain ⟨hi, hl⟩ := (Discipline.scoping p).recorded description h.1 hk hloc hroom
    exact ⟨⟨hi, h.2⟩, hl⟩
  changed c h hv hc := by
    obtain ⟨hi, hl⟩ := (Discipline.scoping p).changed c h.1 hv hc
    refine ⟨⟨hi, fun hN => (h.2 hN).changed h.1.1.frames.nodup_frames ?_⟩, hl⟩
    rintro scope name value rfl
    exact hc hN
  allocated h hv hs := by
    obtain ⟨hi, hl, hr⟩ := (Discipline.scoping p).allocated h.1 hv hs
    exact ⟨⟨hi, h.2⟩, hl, hr⟩
  opened name h := by
    obtain ⟨hi, hl⟩ := (Discipline.scoping p).opened name h.1
    exact ⟨⟨hi, fun hN => (h.2 hN).inScope .block name _⟩, hl⟩
  entered shown h hf := by
    obtain ⟨hi, hl⟩ := (Discipline.scoping p).entered shown h.1 hf
    exact ⟨⟨hi, fun hN => ⟨(h.2 hN).inScope .function shown _, (h.2 hN).frameless shown _⟩⟩,
      hl⟩
  bare_iff hN := by
    refine ⟨fun h => ⟨((Discipline.scoping p).bare_iff hN).1 h.1, fun hN' => absurd hN' hN⟩,
      fun h => ?_⟩
    exact ⟨((Discipline.scoping p).bare_iff hN).2 h.1, fun hN' => absurd hN' hN⟩
  bare_declared name h hhead hv := by
    obtain ⟨hi, hl⟩ := (Discipline.scoping p).bare_declared name h.1 hhead hv
    exact ⟨⟨hi, fun hN => (h.2 hN).1.declared (h.2 hN).2 hhead name _⟩, hl⟩
  pushed {_ m m₁ _ _ _ _ _} loc line h hf hdepth h₁ hl hr hp hshows := by
    refine ⟨(Discipline.scoping p).pushed loc line h.1 hf hdepth h₁.1 hl hr hp hshows,
      fun hN f hf => ?_⟩
    rcases List.mem_cons.1 hf with rfl | hf
    · obtain ⟨howner, -⟩ := (h.2 hN).frameless _ _ m.scopes.size rfl
      exact .of_shows (Scopes.Grown.owner? hl howner) rfl rfl (hshows hN)
    · exact (h₁.2 hN).1 f hf
  back {_ m m' stack} h h' hl hstack hr := by
    refine ⟨(Discipline.scoping p).back h.1 h'.1 hl hstack hr, fun hN => ?_⟩
    refine (h'.2 hN).of_frames rfl fun f hf => ⟨f, ?_, rfl, rfl, rfl⟩
    rcases hstack with rfl | rfl
    · exact hf
    · exact List.mem_of_mem_tail hf

/-! ### Runs -/

/-- A frame mirrors its scope at every step: it shows the value of every name that the scope
of its call binds, unless a block of the call binds the name as well; and what it shows for a
name is the value of the name in the scope of the call or in one of its blocks.  Parameters
have no fallbacks here. -/
theorem frames_mirror_scopes {L : RunLimits} {fuel : Nat} {p : Program}
    (hp : p.region.NoFallbacks) {e : Execution} (he : Execution.ofProgram? L fuel p = some e)
    {s : Step} (hs : s ∈ e.steps) :
    s = (stateAt L fuel p s.id).step s.kind s.loc s.description ∧
    ∀ f ∈ s.stack.toList, ∀ name value,
      ((stateAt L fuel p s.id).scopes.valueAt? f.scope name = some value →
        (∀ id, (stateAt L fuel p s.id).scopes.owner? id = some f.scope → id ≠ f.scope →
          (stateAt L fuel p s.id).scopes.valueAt? id name = none) →
        f.get? name = some value) ∧
      (f.get? name = some value → ∃ id,
        (stateAt L fuel p s.id).scopes.owner? id = some f.scope ∧
        (stateAt L fuel p s.id).scopes.valueAt? id name = some value) := by
  have hstep := Execution.eq_step_stateAt he hs
  have hbody : ∀ t ∈ p.body, p.region.has (.stmt t) := fun _ ht => Program.region_stmt ht
  have hinitial : (Discipline.mirroring p).inv { L with maxSteps := s.id } (.initial _) :=
    ⟨⟨Machine.formed_initial _ _, fun _ => rfl⟩, fun _ f hf => absurd hf List.not_mem_nil⟩
  have hmirrored : (stateAt L fuel p s.id).Mirrored :=
    ((Discipline.mirroring p).inv_runFrom hbody hinitial fuel).2 hp
  refine ⟨hstep, fun f hf name value => ?_⟩
  have hmem : f ∈ (stateAt L fuel p s.id).stack.frames := by
    have hstack : s.stack = (stateAt L fuel p s.id).stack := congrArg Step.stack hstep
    rw [← hstack]
    exact List.mem_reverse.1 hf
  exact ⟨fun hv hblocks => (hmirrored f hmem).get?_eq hv hblocks,
    (hmirrored f hmem).shown name value⟩

/-- A function with a block that binds the name of its parameter. -/
def covered : Routine :=
  ⟨some "f", [⟨"x", none⟩],
    .block
    [.block [.declare .letK [⟨"x", some (.bool true default), default⟩] default] default],
    false, false, default, default⟩

/-- A call of it: `function f(x) { { let x = true; } } f(false);`. -/
def covering : Program :=
  ⟨[.function covered default,
    .expr (.call (.ident "f" default) [.bool false default] default) default], default⟩

theorem covering_noFallbacks : covering.region.NoFallbacks := by
  intro r hr q hq
  exact Option.isNone_iff_eq_none.1
    (Program.params_pass (·.fallback.isNone) 6 (by decide +kernel) hr q hq)

theorem Value.eq_of_same_bool {v : Value} {b : Bool} (h : v.same (.bool b) = true) :
    v = .bool b := by
  cases v with
  | bool c => exact congrArg Value.bool (eq_of_beq h)
  | _ => cases h

theorem eq_some_of_any_same {o : Option Value} {b : Bool}
    (h : o.any (·.same (.bool b)) = true) : o = some (.bool b) := by
  obtain ⟨v, rfl, hv⟩ := (Option.any_eq_true _ _).1 h
  rw [Value.eq_of_same_bool hv]

/-- Where the function begins, the frame shows its parameter. -/
theorem covering_mirrors :
    covering.region.NoFallbacks ∧ ∃ e, Execution.ofProgram? {} 9 covering = some e ∧
    ∃ s ∈ e.steps, s.id = 2 ∧ ∃ f ∈ s.stack.toList, f.get? "x" = some (.bool false) := by
  have hrun : (Execution.ofProgram? {} 9 covering).any
      (·.steps.any fun s => s.id == 2 && s.stack.toList.any (·.scope == 1)) = true := by
    decide +kernel
  obtain ⟨e, he, hany⟩ := (Option.any_eq_true _ _).1 hrun
  obtain ⟨s, hs, hstep⟩ := List.any_eq_true.1 hany
  obtain ⟨hid, hany⟩ := (Bool.and_eq_true _ _ ▸ hstep :)
  obtain ⟨f, hf, hscope⟩ := List.any_eq_true.1 hany
  obtain ⟨-, hmirrors⟩ := frames_mirror_scopes covering_noFallbacks he hs
  rw [eq_of_beq hid] at hmirrors
  have hvalue :
      (stateAt {} 9 covering 2).scopes.valueAt? f.scope "x" = some (.bool false) := by
    rw [eq_of_beq hscope]
    exact eq_some_of_any_same (by decide +kernel)
  have hsize : (stateAt {} 9 covering 2).scopes.size = 2 := by decide +kernel
  have hglobal : (stateAt {} 9 covering 2).scopes.owner? 0 = none := by decide +kernel
  refine ⟨covering_noFallbacks, e, he, s, hs, eq_of_beq hid, f, hf,
    (hmirrors f hf "x" _).1 hvalue fun id ho hne => ?_⟩
  -- There are no scopes yet but the global one and that of the call.
  rw [eq_of_beq hscope] at hne
  obtain ⟨_, hget⟩ := Scopes.exists_get?_of_owner? ho
  have hlt : id < 2 := hsize ▸ Scopes.lt_size_of_get? hget
  obtain rfl : id = 0 := Nat.lt_one_iff.1 (Nat.lt_of_le_of_ne (Nat.le_of_lt_succ hlt) hne)
  rw [hglobal] at ho
  cases ho

/-- A function with a fallback that writes to the parameter before it. -/
def rewritten : Routine :=
  ⟨some "f", [⟨"x", none⟩,
    ⟨"y", some (.assign .plain (.name "x" default) (.bool true default) default)⟩], .block [],
    false, false, default, default⟩

/-- A call of it: `function f(x, y = x = true) {} f(false);`. -/
def rewriting : Program :=
  ⟨[.function rewritten default,
    .expr (.call (.ident "f" default) [.bool false default] default) default], default⟩

/-- Some step has a frame that shows a name with another value than it has in the scope of the
call, which is in use. -/
def Execution.Differs (e : Execution) (name : String) (value shown : Bool) : Prop :=
  ∃ s ∈ e.steps, ∃ f ∈ s.stack.toList, ∃ scope ∈ s.scopes, scope.id = f.scope ∧
    scope.get? name = some (.bool value) ∧ f.get? name = some (.bool shown)

theorem Execution.differs_of_any {o : Option Execution} {name : String} {value shown : Bool}
    (h : o.any (·.steps.any fun s => s.stack.toList.any fun f => s.scopes.any fun scope =>
      scope.id == f.scope && ((scope.get? name).any (·.same (.bool value)) &&
        (f.get? name).any (·.same (.bool shown)))) = true) :
    ∃ e, o = some e ∧ e.Differs name value shown := by
  obtain ⟨e, he, h⟩ := (Option.any_eq_true _ _).1 h
  obtain ⟨s, hs, h⟩ := List.any_eq_true.1 h
  obtain ⟨f, hf, h⟩ := List.any_eq_true.1 h
  obtain ⟨scope, hscope, h⟩ := List.any_eq_true.1 h
  simp only [Bool.and_eq_true] at h
  exact ⟨e, he, s, hs, f, hf, scope, hscope, eq_of_beq h.1, eq_some_of_any_same h.2.1,
    eq_some_of_any_same h.2.2⟩

/-- A block that binds the name of a parameter changes what is shown of the parameter, and a
fallback that writes to a parameter does not change what is shown of it. -/
theorem covering_and_rewriting_differ :
    (∃ e, Execution.ofProgram? {} 9 covering = some e ∧ e.Differs "x" false true) ∧
    ∃ e, Execution.ofProgram? {} 9 rewriting = some e ∧ e.Differs "x" true false :=
  ⟨Execution.differs_of_any (by decide +kernel), Execution.differs_of_any (by decide +kernel)⟩

end ScriptReplay
