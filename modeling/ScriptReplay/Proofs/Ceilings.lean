/-
Ceilings only stop a run.

Two runs of a program whose ceilings differ do the same until the lower ceilings stop the
first of them.

* `Discipline.growth` : steps and printed lines are only ever added, and there is always room
  for a last step;
* `Guarded` : two computations that do the same until the first is cut off;
* `guarded_of_acts` : computations made of the same actions are guarded;
* `Execution.eq_or_prefix_of_le` : raised ceilings never change what was there before.

Design notes: the ceiling on steps is kept in the state as well, so the states of two runs are
equal up to that number (`Machine.withMax`).  A step shows nothing of it.
-/
import ScriptReplay.Proofs.Discipline

namespace ScriptReplay

/-! ### Growth -/

/-- All steps and lines of the first state are those with which the second began. -/
structure Machine.Before (m m' : Machine) : Prop where
  steps : m.trace.newest <:+ m'.trace.newest
  lines : m.console.newest <:+ m'.console.newest

theorem Machine.Before.refl (m : Machine) : m.Before m :=
  ⟨List.suffix_rfl, List.suffix_rfl⟩

theorem Machine.Before.trans {m m' m'' : Machine} (h : m.Before m') (h' : m'.Before m'') :
    m.Before m'' :=
  ⟨h.steps.trans h'.steps, h.lines.trans h'.lines⟩

/-- A scope is in use, and there is room for one more step. -/
structure Machine.HasRoom (m : Machine) : Prop where
  chain : m.chain ≠ []
  room : m.trace.count < m.trace.max

/-- The second state goes on from the first. -/
def Machine.GrowsTo (m m' : Machine) : Prop :=
  m.Before m' ∧ m'.HasRoom

theorem Machine.GrowsTo.trans {m m' m'' : Machine} (h : m.GrowsTo m') (h' : m'.GrowsTo m'') :
    m.GrowsTo m'' :=
  ⟨h.1.trans h'.1, h'.2⟩

theorem Change.hasRoom (c : Change) {m : Machine} (h : m.HasRoom) : (c.apply m).HasRoom := by
  obtain ⟨hchain, htrace, -⟩ := c.kept m
  exact ⟨hchain ▸ h.chain, htrace ▸ h.room⟩

theorem Change.before (c : Change) (m : Machine) : m.Before (c.apply m) := by
  obtain ⟨-, htrace, hlines⟩ := c.kept m
  exact ⟨htrace ▸ List.suffix_rfl, hlines⟩

/-- Steps and lines are only ever added, and room is kept for a last step. -/
def Discipline.growth : Discipline .all where
  inv _ m := m.HasRoom
  bare _ m := m.HasRoom
  later := Machine.Before
  sound _ _ := True
  later_refl := .refl
  later_trans := .trans
  later_frames m _ _ := ⟨List.suffix_rfl, List.suffix_rfl⟩
  sound_later _ _ := trivial
  sound_plain _ := trivial
  sound_legal _ := Stock.everything.legal trivial
  sound_held _ _ := trivial
  sound_function _ _ _ := trivial
  chain_ne_nil h := h.chain
  recorded _ h _ _ hroom := by
    refine ⟨⟨h.chain, ?_⟩, List.suffix_cons _ _, List.suffix_rfl⟩
    exact of_decide_eq_true hroom
  changed c h _ _ := ⟨c.hasRoom h, c.before _⟩
  allocated h _ _ := ⟨⟨h.chain, h.room⟩, ⟨List.suffix_rfl, List.suffix_rfl⟩, trivial⟩
  opened _ h := ⟨⟨List.cons_ne_nil _ _, h.room⟩, List.suffix_rfl, List.suffix_rfl⟩
  entered _ h _ := ⟨⟨List.cons_ne_nil _ _, h.room⟩, List.suffix_rfl, List.suffix_rfl⟩
  bare_iff _ := Iff.rfl
  bare_declared name h _ _ := ⟨Change.hasRoom (.declare _ name _) h, Change.before _ _⟩
  pushed _ _ _ _ _ h _ _ _ _ := ⟨h.chain, h.room⟩
  back h h' _ _ _ := ⟨h.chain, h'.room⟩

/-! ### States of two runs -/

/-- The recorder with another ceiling. -/
def Recorder.withMax (r : Recorder) (max : Nat) : Recorder :=
  ⟨r.newest, max, r.count, r.count_eq⟩

/-- The state with another ceiling on steps. -/
def Machine.withMax (m : Machine) (max : Nat) : Machine :=
  { m with trace := m.trace.withMax max }

theorem Machine.withMax_self {m : Machine} {max : Nat} (h : m.trace.max = max) :
    m.withMax max = m := by
  subst h
  rfl

theorem Machine.alike_withMax (m : Machine) (max : Nat) : m.Alike (m.withMax max) :=
  ⟨rfl, rfl, rfl, rfl, rfl⟩

theorem Change.apply_withMax (c : Change) (m : Machine) (max : Nat) :
    c.apply (m.withMax max) = (c.apply m).withMax max := by
  cases c with
  | bind scope name value isConst =>
    unfold Change.apply Machine.showBinding
    dsimp only [Machine.withMax]
    split
    · rfl
    · rfl
  | _ => rfl

theorem Machine.growsTo_outOfScope {m : Machine} (h : m.HasRoom) :
    m.GrowsTo m.outOfScope ∧ m.outOfScope.trace.max = m.trace.max := by
  unfold Machine.outOfScope
  split
  · exact ⟨⟨⟨List.suffix_rfl, List.suffix_rfl⟩, ⟨List.cons_ne_nil _ _, h.room⟩⟩, rfl⟩
  · exact ⟨⟨.refl m, h⟩, rfl⟩

theorem Machine.outOfScope_withMax (m : Machine) (max : Nat) :
    (m.withMax max).outOfScope = m.outOfScope.withMax max := by
  unfold Machine.outOfScope
  dsimp only [Machine.withMax]
  split
  · rfl
  · rfl

/-! ### Guarded computations -/

/-- What cuts the first of two runs off: the end of its fuel, or a ceiling that may be higher
for the second. -/
inductive Gap.Cuts (G : Gap) : Stop → Prop
  | fuel (hG : G.FuelDiffers) : G.Cuts .outOfFuel
  | ceiling {f : Failure} (hG : G = .raised) (hc : f.cause.isLimit = true) :
      G.Cuts (.failed f)
  | steps {n : Nat} (hG : G = .longer) : G.Cuts (.failed ⟨.stepLimit n, Option.none⟩)

/-- The second state has a step that shows the first, just after the steps of the first. -/
def Machine.ToldIn (m m' : Machine) : Prop :=
  ∃ kind loc description, m.step kind loc description :: m.trace.newest <:+ m'.trace.newest

/-- How the outcomes of two runs compare: they are the same up to the ceiling on steps, or the
first run was cut off and the second went on from there.  If it was cut off for want of room,
the second went on with the step for which there was none. -/
inductive Follows (G : Gap) (L L' : RunLimits) {α : Type} :
    Except Stop α × Machine → Except Stop α × Machine → Prop
  | same {r : Except Stop α} {m : Machine}
    (hmax : m.trace.max = L.maxSteps) (hroom : m.HasRoom) :
    Follows G L L' (r, m) (r, m.withMax L'.maxSteps)
  | cut {s : Stop} {m : Machine} {o : Except Stop α × Machine} (hs : G.Cuts s)
    (hg : m.GrowsTo o.2)
    (hnext : ∀ n, s = .failed ⟨.stepLimit n, none⟩ →
      m.trace.nextId = L.maxSteps ∧ m.ToldIn o.2) :
    Follows G L L' (.error s, m) o

/-- Two computations that do the same until the first is cut off. -/
def Guarded (G : Gap) {α : Type} (x y : Run α) : Prop :=
  ∀ L L' m, G.Between L L' → m.trace.max = L.maxSteps → m.HasRoom →
    Follows G L L' (x.outcome L m) (y.outcome L' (m.withMax L'.maxSteps))

theorem Machine.HasRoom.withMax {m : Machine} (h : m.HasRoom) {L L' : RunLimits}
    (hmax : m.trace.max = L.maxSteps) (hL : L ≤ L') : (m.withMax L'.maxSteps).HasRoom := by
  refine ⟨h.chain, Nat.lt_of_lt_of_le h.room ?_⟩
  rw [hmax]
  exact hL.maxSteps

section
variable {G : Gap} {α β : Type}

/-- An outcome that goes on from a state, and what goes on from there. -/
theorem Machine.GrowsTo.follow {m : Machine} {o : Except Stop α × Machine} (h : m.GrowsTo o.2)
    {k : α → Machine → Except Stop β × Machine}
    (hk : ∀ a (m' : Machine), m'.HasRoom → m'.GrowsTo (k a m').2) :
    m.GrowsTo (Run.follow o k).2 := by
  rcases o with ⟨s | a, m'⟩
  · exact h
  · exact h.trans (hk a m' h.2)

/-- What comes after compared outcomes, if it compares as well and the second run only adds to
what it has. -/
theorem Follows.next {L L' : RunLimits} {o o' : Except Stop α × Machine}
    (h : Follows G L L' o o') {k k' : α → Machine → Except Stop β × Machine}
    (hk : ∀ a (m : Machine), m.trace.max = L.maxSteps → m.HasRoom →
      Follows G L L' (k a m) (k' a (m.withMax L'.maxSteps)))
    (hk' : ∀ a (m : Machine), m.HasRoom → m.GrowsTo (k' a m).2) :
    Follows G L L' (Run.follow o k) (Run.follow o' k') := by
  cases h with
  | @same r m hmax hroom =>
    cases r with
    | error s => exact .same hmax hroom
    | ok a => exact hk a m hmax hroom
  | cut hs hg hnext =>
    -- A run that was cut off stays as it is, whatever the other does.
    have hon : o'.2.GrowsTo (Run.follow o' k').2 := Machine.GrowsTo.follow ⟨.refl _, hg.2⟩ hk'
    refine .cut hs (hg.trans hon) fun n hn => ?_
    obtain ⟨hid, kind, loc, description, hsuffix⟩ := hnext n hn
    exact ⟨hid, kind, loc, description, hsuffix.trans hon.1.steps⟩

theorem Guarded.bind {x y : Run α} {f g : α → Run β} (hx : Guarded G x y)
    (hf : ∀ a, Guarded G (f a) (g a))
    (hgrow : ∀ a L (m : Machine), m.HasRoom → m.GrowsTo ((g a).outcome L m).2) :
    Guarded G (x >>= f) (y >>= g) := by
  intro L L' m hL hmax hroom
  rw [Run.outcome_bind, Run.outcome_bind]
  refine (hx L L' m hL hmax hroom).next (fun a m₁ hmax₁ hroom₁ => ?_) fun a m₁ hroom₁ =>
    hgrow a L' m₁ hroom₁
  exact hf a L L' m₁ hL hmax₁ hroom₁

end

/-! ### Actions are guarded -/

variable {G : Gap} {α β : Type} [Carries α] [Carries β] {K : Stock .all}

/-- A computation that keeps to growth only adds to what it has. -/
theorem growsTo_of_safe {y : Run α} (h : Discipline.growth.Safe K y) (L : RunLimits)
    {m : Machine} (hm : m.HasRoom) : m.GrowsTo (y.outcome L m).2 := by
  have hends := h L m hm fun _ _ => trivial
  exact ⟨hends.later, hends.inv⟩

theorem growsTo_of_acts {x y : Run α} (h : Acts G K x y) (L : RunLimits) {m : Machine}
    (hm : m.HasRoom) : m.GrowsTo (y.outcome L m).2 :=
  growsTo_of_safe (Discipline.safe_of_acts h).2 L hm

/-- A first run that is cut off at once, but not for want of room for a step. -/
theorem cut_of_safe {y : Run α} (h : Discipline.growth.Safe K y) {L L' : RunLimits}
    (hL : L ≤ L') {m : Machine} (hmax : m.trace.max = L.maxSteps) (hroom : m.HasRoom)
    {s : Stop} (hs : G.Cuts s) (hne : ∀ n, s ≠ .failed ⟨.stepLimit n, none⟩) :
    Follows G L L' (.error s, m) (y.outcome L' (m.withMax L'.maxSteps)) := by
  obtain ⟨hb, hroom'⟩ := growsTo_of_safe h L' (hroom.withMax hmax hL)
  exact .cut hs ⟨⟨hb.steps, hb.lines⟩, hroom'⟩ fun n hn => absurd hn (hne n)

theorem Machine.HasRoom.recorded {m : Machine} (h : m.HasRoom)
    (hfits : m.trace.hasRoom = true) (kind : StepKind) (loc : Location)
    (description : String) : (m.recorded kind loc description).HasRoom :=
  ⟨h.chain, of_decide_eq_true hfits⟩

theorem Guarded.record (kind : StepKind) (loc : Location) (description : String) :
    Guarded G (ScriptReplay.record kind loc description)
      (ScriptReplay.record kind loc description) := by
  intro L L' m hL hmax hroom
  have hle : L.maxSteps ≤ L'.maxSteps := hL.le.maxSteps
  rw [Run.outcome_record, Run.outcome_record]
  by_cases hfits : m.trace.hasRoom = true
  · have hfits' : (m.withMax L'.maxSteps).trace.hasRoom = true := by
      refine decide_eq_true (Nat.lt_of_lt_of_le (of_decide_eq_true hfits) ?_)
      rw [hmax]
      exact hle
    rw [if_pos hfits, if_pos hfits']
    exact .same (m := m.recorded kind loc description) hmax
      (hroom.recorded hfits kind loc description)
  · -- The last place is free, so the first run stops just before the step that would take it.
    have hfull : m.trace.count + 1 = L.maxSteps := by
      have hnot : ¬ m.trace.count + 1 < m.trace.max := fun h => hfits (decide_eq_true h)
      have hlt : m.trace.count < m.trace.max := hroom.room
      omega
    rw [if_neg hfits]
    by_cases heq : L.maxSteps = L'.maxSteps
    · rw [Machine.withMax_self (hmax.trans heq), if_neg hfits]
      have hself : Follows G L L' (.error (.failed ⟨.stepLimit m.trace.max, none⟩), m)
          ((.error (.failed ⟨.stepLimit m.trace.max, none⟩), m.withMax L'.maxSteps) :
            Except Stop Unit × Machine) := .same hmax hroom
      rwa [Machine.withMax_self (hmax.trans heq)] at hself
    · have hfits' : (m.withMax L'.maxSteps).trace.hasRoom = true := by
        refine decide_eq_true ?_
        show m.trace.count + 1 < L'.maxSteps
        omega
      have hcut : G.Cuts (.failed ⟨.stepLimit m.trace.max, none⟩) := by
        rcases hL.steps_eq with h | hG | hG
        · exact absurd h heq
        · exact .steps hG
        · exact .ceiling hG rfl
      rw [if_pos hfits']
      refine .cut hcut ⟨⟨List.suffix_cons _ _, List.suffix_rfl⟩, ?_⟩ fun n _ => ⟨hfull, ?_⟩
      · exact (hroom.withMax hmax hL.le).recorded hfits' kind loc description
      · exact ⟨kind, loc, description, List.suffix_rfl⟩

theorem Guarded.change (c : Change) : Guarded G (modify c.apply) (modify c.apply) := by
  intro L L' m _ hmax hroom
  rw [Run.outcome_modify, Run.outcome_modify, c.apply_withMax]
  refine .same ?_ (c.hasRoom hroom)
  rw [(c.kept m).2.1]
  exact hmax

theorem Guarded.block {x y : Run Completion} (hx : Guarded G x y) (name : String) :
    Guarded G (inLoopScope name x) (inLoopScope name y) := by
  intro L L' m hL hmax hroom
  rw [Run.outcome_inLoopScope, Run.outcome_inLoopScope]
  have h := hx L L' (m.inScope .block name m.chain) hL hmax ⟨List.cons_ne_nil _ _, hroom.room⟩
  refine h.next (fun c m₁ hmax₁ hroom₁ => ?_) fun c m₁ hroom₁ =>
    (Machine.growsTo_outOfScope hroom₁).1
  obtain ⟨hg, hmax₂⟩ := Machine.growsTo_outOfScope hroom₁
  rw [Machine.outOfScope_withMax]
  exact .same (hmax₂.trans hmax₁) hg.2

theorem Guarded.call {w w' : Walker} {shown : String} {r : Routine} {chain : Chain}
    {args : List Value} {loc : Location} {body body' : Table Value → Run Value}
    (hsafe : Discipline.growth.Safe K (inCall w' shown r chain args loc body'))
    (hbind : ∀ scope, Guarded G (bindParams w scope .empty r.params args)
      (bindParams w' scope .empty r.params args))
    (hbody : ∀ params, Guarded G (body params) (body' params))
    (hgrow : ∀ params L (m : Machine), m.HasRoom → m.GrowsTo ((body' params).outcome L m).2) :
    Guarded G (inCall w shown r chain args loc body)
      (inCall w' shown r chain args loc body') := by
  intro L L' m hL hmax hroom
  by_cases hdepth : L.maxCallDepth ≤ m.stack.depth
  · rw [Run.outcome_inCall L m, if_pos hdepth]
    have hsteps : ∀ (L : RunLimits) n,
        { L with maxSteps := n }.maxCallDepth = L.maxCallDepth :=
      fun _ _ => rfl
    rcases hL.eq_or_raised hsteps with heq | hG
    · rw [Run.outcome_inCall, if_pos (heq ▸ hdepth)]
      exact .same hmax hroom
    -- Only the lower ceiling is reached: the first run is cut before the call.
    · exact cut_of_safe hsafe hL.le hmax hroom (.ceiling hG rfl) fun n h => by cases h
  · have hdepth' : ¬ L'.maxCallDepth ≤ (m.withMax L'.maxSteps).stack.depth :=
      fun h => hdepth (Nat.le_trans hL.le.maxCallDepth h)
    have hpop : ∀ m₂ : Machine, m₂.HasRoom → m₂.GrowsTo (m₂.popped m.chain) :=
      fun m₂ h => ⟨⟨List.suffix_rfl, List.suffix_rfl⟩, ⟨hroom.chain, h.room⟩⟩
    rw [Run.outcome_inCall L m, if_neg hdepth,
      Run.outcome_inCall L' (m.withMax _), if_neg hdepth']
    have h := hbind m.scopes.size L L' (m.inScope .function shown chain) hL hmax
      ⟨List.cons_ne_nil _ _, hroom.room⟩
    refine h.next (fun params m₁ hmax₁ hroom₁ => ?_) fun params m₁ hroom₁ => ?_
    · have h₁ :=
        hbody params L L' (m₁.pushed shown params loc r.bodyLoc.line m.scopes.size) hL hmax₁
        ⟨hroom₁.chain, hroom₁.room⟩
      refine h₁.next (fun v m₂ hmax₂ hroom₂ => ?_) fun v m₂ => hpop m₂
      exact .same (m := m₂.popped m.chain) hmax₂ (hpop m₂ hroom₂).2
    -- The first run was cut while parameters were bound; the other one goes on with the body.
    · have hg := hgrow params L' (m₁.pushed shown params loc r.bodyLoc.line m.scopes.size)
        ⟨hroom₁.chain, hroom₁.room⟩
      have hg₁ :=
        hg.follow (k := fun v m₂ => (Except.ok v, m₂.popped m.chain)) fun v m₂ => hpop m₂
      exact ⟨⟨hg₁.1.steps, hg₁.1.lines⟩, hg₁.2⟩

theorem Guarded.tell (recorded : Bool) (kind : StepKind) (loc : Location)
    (words : Heap → String) :
    Guarded G (ScriptReplay.tell recorded kind loc words)
      (ScriptReplay.tell recorded kind loc words) := by
  intro L L' m hL hmax hroom
  rw [Run.outcome_tell, Run.outcome_tell]
  split
  · exact Guarded.record kind loc (words m.heap) L L' m hL hmax hroom
  · exact .same hmax hroom

theorem Guarded.toldCall {w w' : Walker} {shown name : String} {r : Routine} {chain : Chain}
    {args : List Value} {loc : Location} {body body' : Run Value}
    (hf : K.has (.function (.script name r chain))) (ha : ∀ v ∈ args, K.has v)
    (hloc : Region.all.Place loc)
    (hsafe : ∀ scope, Discipline.growth.Safe K (bindParams w' scope .empty r.params args))
    (hsafe' : Discipline.growth.Safe K body')
    (hbind : ∀ scope, Guarded G (bindParams w scope .empty r.params args)
      (bindParams w' scope .empty r.params args))
    (hbody : Guarded G body body') (recorded : Bool) :
    Guarded G (ScriptReplay.toldCall recorded w shown r chain args loc body)
      (ScriptReplay.toldCall recorded w' shown r chain args loc body') := by
  have htell : ∀ (kind : StepKind) (words : Heap → String), kind ≠ .error →
      Discipline.growth.Safe K (ScriptReplay.tell recorded kind loc words) :=
      fun _ words hk => .tell hk hloc _ words
  have htold : ∀ (K' : Stock .all) (params : Table Value), K ≤ K' → Discipline.growth.Safe K'
      (do ScriptReplay.tell recorded .call loc (callWords shown params); body') :=
      fun K' params hK =>
    .bind ((htell _ _ (by decide)).mono hK) fun _ _ hK' _ =>
      hsafe'.mono (Stock.le_trans hK hK')
  refine Guarded.bind (.call (K := K) ?_ hbind (fun params => ?_) fun params L m hm => ?_)
    (fun result => ?_)
    fun result L m hm => ?_
  · exact .call hf ha hloc (fun _ => hsafe) fun params K' hK _ => htold K' params hK
  · exact (Guarded.tell _ _ _ _).bind (fun _ => hbody) fun _ L m hm =>
      growsTo_of_safe hsafe' L hm
  · exact growsTo_of_safe (htold K params (Stock.le_refl K)) L hm
  · refine (Guarded.tell _ _ _ _).bind (fun _ => ?_) fun _ L m hm => ?_
    · exact fun L L' m _ hmax hroom => .same hmax hroom
    · exact ⟨.refl m, hm⟩
  · have hpure : ∀ K' : Stock .all, Stock.everything ≤ K' → K'.has result :=
      fun _ hK => hK _ trivial
    exact growsTo_of_safe (K := Stock.everything)
      (.bind (.tell (by decide) hloc _ _) fun _ K' hK _ => .pure (hpure K' hK)) L hm

/-- Computations made of the same actions do the same until the first is cut off. -/
theorem guarded_of_acts {x y : Run α} (h : Acts G K x y) (hG : G.FuelEnds) :
    Guarded G x y := by
  induction h with
  | pure _ => exact fun L L' m _ hmax hroom => .same hmax hroom
  | bind hx hf ihx ihf =>
    refine (ihx hG).bind (fun a => ?_) fun a L m hroom => ?_
    · exact ihf a Stock.everything (fun _ _ => trivial) (Carries.all (fun _ => trivial) a) hG
    · exact growsTo_of_acts
        (hf a Stock.everything (fun _ _ => trivial) (Carries.all (fun _ => trivial) a)) L
        hroom
  | look _ ih =>
    intro L L' m hL hmax hroom
    rw [Run.outcome_get_bind, Run.outcome_get_bind]
    exact ih m (m.withMax L'.maxSteps) Stock.everything (m.alike_withMax _)
      (fun _ _ => trivial) (fun _ _ => trivial) (fun _ => trivial) hG L L' m hL hmax hroom
  | ceilings _ ih =>
    intro L L' m hL hmax hroom
    rw [Run.outcome_read_bind, Run.outcome_read_bind]
    exact ih L L' hL ⟨trivial, trivial⟩ ⟨trivial, trivial⟩ hG L L' m hL hmax hroom
  | fail _ => exact fun L L' m _ hmax hroom => .same hmax hroom
  | stopAtCeiling hraised hc _ hy _ =>
    intro L L' m hL hmax hroom
    refine cut_of_safe (Discipline.safe_of_acts hy).2 hL.le hmax hroom (.ceiling hraised hc)
      fun n h => ?_
    cases h
  | noFuel _ => exact fun L L' m _ hmax hroom => .same hmax hroom
  | stopWithoutFuel hfuel hy _ =>
    intro L L' m hL hmax hroom
    refine cut_of_safe (Discipline.safe_of_acts hy).2 hL.le hmax hroom (.fuel hfuel)
      fun n h => ?_
    cases h
  | @record _ _ kind loc description _ _ => exact .record kind loc description
  | @say G _ line kind loc description hk hloc =>
    refine (Guarded.change (.print line)).bind
      (fun _ => .record kind loc description) fun _ L m hroom => ?_
    exact growsTo_of_acts (G := G) (K := Stock.everything) (.record hk hloc) L hroom
  | change c _ _ _ => exact .change c
  | newSlot _ _ =>
    exact fun L L' m _ hmax hroom => .same (m := m.allocated _) hmax ⟨hroom.chain, hroom.room⟩
  | makeFunction _ _ => exact fun L L' m _ hmax hroom => .same hmax hroom
  | block _ ih => exact (ih hG).block _
  | call hf hargs hloc hbind _ hbody ihbind ihbody =>
    rw [hG.inner_eq] at ihbody
    refine .toldCall hf hargs hloc (fun scope => ?_) (Discipline.safe_of_acts hbody).2
      (fun scope => ?_) (ihbody hG) _
    · exact (Discipline.safe_of_acts (hbind Region.all_fallbacks scope)).2
    · exact ihbind Region.all_fallbacks scope hG

/-! ### Whole runs -/

/-- The ceilings of two runs with a gap between them, if their fuel may differ as well. -/
def Gap.Apart : Gap → RunLimits → RunLimits → Prop
  | none, L, L' => L = L'
  | raised, L, L' => L ≤ L'
  | _, _, _ => False

theorem Gap.Apart.fuelDiffers {L L' : RunLimits} (h : G.Apart L L') : G.FuelDiffers := by
  cases G with
  | none => exact trivial
  | raised => exact trivial
  | _ => exact h.elim

theorem Gap.Apart.between {L L' : RunLimits} (h : G.Apart L L') : G.Between L L' := by
  cases G with
  | none => exact h
  | raised => exact h
  | _ => exact h.elim

/-- Two runs of a program compare, if the walkers compare. -/
theorem follows_of_walks (hG : G.FuelEnds) {L L' : RunLimits} (hL : G.Between L L')
    (hsteps : 1 ≤ L.maxSteps) (p : Program) {fuel fuel' : Nat}
    (hw : Walks G Region.all.ground (walker fuel) (walker fuel')) :
    Follows G L L' (runFrom L fuel p) (runFrom L' fuel' p) := by
  have hacts : Acts G Stock.everything (runProgram fuel p) (runProgram fuel' p) :=
    runProgram_acts (fun _ _ => trivial) hw
  exact guarded_of_acts hacts hG L L' (.initial L) hL rfl ⟨List.cons_ne_nil _ _, hsteps⟩

/-- Two runs of a program compare, if the second has no less fuel. -/
theorem follows_runFrom {L L' : RunLimits} (hL : G.Apart L L') (hsteps : 1 ≤ L.maxSteps)
    (p : Program) {fuel fuel' : Nat} (h : fuel ≤ fuel') :
    Follows G L L' (runFrom L fuel p) (runFrom L' fuel' p) :=
  follows_of_walks hL.fuelDiffers.fuelEnds hL.between hsteps p (walker_acts hL.fuelDiffers h)

/-- A run that ends before its fuel does not change with more fuel. -/
theorem runFrom_eq_of_fuel_le {L : RunLimits} (hsteps : 1 ≤ L.maxSteps) {p : Program}
    {fuel fuel' : Nat} (h : fuel ≤ fuel') (hend : (runFrom L fuel p).1 ≠ .error .outOfFuel) :
    runFrom L fuel' p = runFrom L fuel p := by
  have hf := follows_runFrom (G := .none) (rfl : L = L) hsteps p h
  generalize runFrom L fuel p = o at hf hend
  generalize runFrom L fuel' p = o' at hf
  cases hf with
  | same hmax _ => rw [Machine.withMax_self hmax]
  | cut hs _ _ =>
    -- The ceilings are the same, so only the end of the fuel could have cut it off.
    cases hs with
    | fuel _ => exact absurd rfl hend
    | ceiling hG _ => cases hG
    | steps hG => cases hG

/-- What a run leaves behind, read off how it ends. -/
def Execution.ofOutcome? (p : Program) : Except Stop Unit × Machine → Option Execution
  | (.ok _, m) => some ⟨m.trace.toList, m.console⟩
  | (.error (.failed f), m) => some ⟨(m.recordFailure f p.loc).trace.toList, m.console⟩
  | (.error .outOfFuel, _) => none

theorem Execution.ofProgram?_eq (L : RunLimits) (fuel : Nat) (p : Program) :
    Execution.ofProgram? L fuel p = Execution.ofOutcome? p (runFrom L fuel p) := by
  unfold Execution.ofProgram?
  rcases runFrom L fuel p with ⟨(f | _) | _, m⟩
  · rfl
  · rfl
  · rfl

/-- The run ends at a ceiling. -/
def EndsAtCeiling (o : Except Stop Unit × Machine) : Prop :=
  ∃ f, o.1 = .error (.failed f) ∧ f.cause.isLimit = true

/-- With room for a last step, a failure adds one that tells of it. -/
theorem Machine.toList_recordFailure {m : Machine} (h : m.HasRoom) (f : Failure)
    (whole : Location) :
    (m.recordFailure f whole).trace.toList = m.trace.toList ++ [m.failureStep f whole] := by
  unfold Machine.recordFailure Recorder.pushTerminal
  rw [if_pos h.room]
  exact List.reverse_cons

/-- The steps and lines of a state come first in what the run leaves behind. -/
theorem Execution.prefix_of_before {p : Program} {m : Machine}
    {o : Except Stop Unit × Machine} {e : Execution} (h : m.GrowsTo o.2)
    (he : Execution.ofOutcome? p o = some e) :
    m.trace.toList <+: e.steps ∧ m.console.lines <+: e.console.lines := by
  obtain ⟨⟨hsteps, hlines⟩, hroom⟩ := h
  rcases o with ⟨(f | _) | _, m'⟩
  · cases he
    refine ⟨?_, List.reverse_prefix.2 hlines⟩
    dsimp only
    rw [Machine.toList_recordFailure hroom]
    exact (List.reverse_prefix.2 hsteps).trans (List.prefix_append _ _)
  · cases he
  · cases he
    exact ⟨List.reverse_prefix.2 hsteps, List.reverse_prefix.2 hlines⟩

theorem Execution.not_outOfFuel {p : Program} {o : Except Stop Unit × Machine} {e : Execution}
    (he : Execution.ofOutcome? p o = some e) : o.1 ≠ .error .outOfFuel := by
  rcases o with ⟨(f | _) | _, m⟩
  · exact fun h => by cases h
  · cases he
  · exact fun h => by cases h

/-- What two runs leave behind, if the second has higher ceilings. -/
theorem Follows.eq_or_prefix {L L' : RunLimits} {p : Program}
    {o o' : Except Stop Unit × Machine} {e e' : Execution} (h : Follows .raised L L' o o')
    (hroom : o.2.HasRoom) (hroom' : o'.2.HasRoom) (he : Execution.ofOutcome? p o = some e)
    (he' : Execution.ofOutcome? p o' = some e') :
    (¬ EndsAtCeiling o → e.steps = e'.steps ∧ e.console.lines = e'.console.lines) ∧
    (EndsAtCeiling o → ∃ init last, e.steps = init ++ [last] ∧ last.kind = .error ∧
      init <+: e'.steps ∧ e.console.lines <+: e'.console.lines) := by
  cases h with
  | @same r m hmax _ =>
    rcases r with (f | _) | _
    · cases he
      cases he'
      have heq : ((m.withMax L'.maxSteps).recordFailure f p.loc).trace.toList =
          (m.recordFailure f p.loc).trace.toList := by
        rw [Machine.toList_recordFailure hroom, Machine.toList_recordFailure hroom']
        rfl
      refine ⟨fun _ => ⟨heq.symm, rfl⟩, fun _ =>
        ⟨_, _, Machine.toList_recordFailure hroom f p.loc, rfl, ?_⟩⟩
      refine ⟨?_, List.prefix_rfl⟩
      dsimp only
      rw [heq, Machine.toList_recordFailure hroom]
      exact List.prefix_append _ _
    · cases he
    · cases he
      cases he'
      exact ⟨fun _ => ⟨rfl, rfl⟩, fun ⟨f, hf, _⟩ => by cases hf⟩
  | @cut s m _ hs hg _ =>
    cases hs with
    | fuel _ => cases he
    | @ceiling f _ hlimit =>
      cases he
      -- The second run went on from the state in which the first was cut off.
      obtain ⟨hsteps, hlines⟩ := Execution.prefix_of_before hg he'
      refine ⟨fun h => absurd ⟨f, rfl, hlimit⟩ h, fun _ => ?_⟩
      exact ⟨_, _, Machine.toList_recordFailure hroom f p.loc, rfl, hsteps, hlines⟩
    | steps hG => cases hG

/-- Every run leaves room for the step that tells of a failure. -/
theorem hasRoom_runFrom {L : RunLimits} (hsteps : 1 ≤ L.maxSteps) (fuel : Nat) (p : Program) :
    (runFrom L fuel p).2.HasRoom :=
  Discipline.growth.inv_runFrom (fun _ _ => trivial) ⟨List.cons_ne_nil _ _, hsteps⟩ fuel

/-- Raised ceilings never change what was there before: a run that does not end at a ceiling
stays the same, and one that does is, without the step that tells of it, the beginning of
the new one. -/
theorem Execution.eq_or_prefix_of_le {L L' : RunLimits} (hL : L ≤ L')
    (hsteps : 1 ≤ L.maxSteps) {p : Program} {fuel fuel' : Nat} {e e' : Execution}
    (he : Execution.ofProgram? L fuel p = some e)
    (he' : Execution.ofProgram? L' fuel' p = some e') :
    (¬ EndsAtCeiling (runFrom L fuel p) →
      e.steps = e'.steps ∧ e.console.lines = e'.console.lines) ∧
      (EndsAtCeiling (runFrom L fuel p) →
        ∃ init last, e.steps = init ++ [last] ∧ last.kind = .error ∧ init <+: e'.steps ∧
          e.console.lines <+: e'.console.lines) := by
  have hsteps' : 1 ≤ L'.maxSteps := Nat.le_trans hsteps hL.maxSteps
  rw [Execution.ofProgram?_eq] at he he'
  -- Both runs are compared with the same fuel, which is enough for either.
  have heq :=
    runFrom_eq_of_fuel_le hsteps (Nat.le_max_left fuel fuel') (Execution.not_outOfFuel he)
  have heq' :=
    runFrom_eq_of_fuel_le hsteps' (Nat.le_max_right fuel fuel') (Execution.not_outOfFuel he')
  have hf :
      Follows .raised L L' (runFrom L (max fuel fuel') p) (runFrom L' (max fuel fuel') p) :=
    follows_runFrom (G := .raised) hL hsteps p (Nat.le_refl _)
  rw [heq, heq'] at hf
  exact hf.eq_or_prefix (hasRoom_runFrom hsteps fuel p)
    (hasRoom_runFrom hsteps' fuel' p) he he'

/-- A loop that only a ceiling ends. -/
def spinning : Program :=
  ⟨[.whileLoop (.bool true default) (.empty default) default], default⟩

theorem spinning_prefix : ∃ e e', Execution.ofProgram? ⟨8, 1, 1, 1, 1⟩ 4 spinning = some e ∧
    Execution.ofProgram? ⟨8, 1, 3, 1, 1⟩ 4 spinning = some e' ∧
    ∃ init last, e.steps = init ++ [last] ∧ last.kind = .error ∧ init <+: e'.steps ∧
      e.console.lines <+: e'.console.lines := by
  obtain ⟨e, he⟩ : ∃ e, Execution.ofProgram? ⟨8, 1, 1, 1, 1⟩ 4 spinning = some e := ⟨_, rfl⟩
  obtain ⟨e', he'⟩ : ∃ e', Execution.ofProgram? ⟨8, 1, 3, 1, 1⟩ 4 spinning = some e' :=
    ⟨_, rfl⟩
  have hceiling : EndsAtCeiling (runFrom ⟨8, 1, 1, 1, 1⟩ 4 spinning) := ⟨_, rfl, rfl⟩
  have hle : RunLimits.mk 8 1 1 1 1 ≤ RunLimits.mk 8 1 3 1 1 :=
    ⟨by decide, by decide, by decide, by decide, by decide⟩
  exact ⟨e, e', he, he', (Execution.eq_or_prefix_of_le hle (by decide) he he').2 hceiling⟩

end ScriptReplay
