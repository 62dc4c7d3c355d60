/-
Names that are declared, and what is told of them.

A declaration is told of in a step.  A variable is bound by its statement right before that.
A function is bound when the list of statements that it stands in begins, so its name has to
stay bound until the statement is reached.  What is proved of a computation depends on the
names that are bound when it begins.

* `Stmt.Tells`, `Step.Declares` : the statement that a step of a declaration tells of,
  and the name;
* `Program.StandsAlone` : statements that stand in no list;
* `Step.Honest` : a step of a declaration shows the name bound, or tells of a function that
  stands alone;
* `Truthful` : computations that only add such steps where some names are bound;
* `declareName_introduces`, `hoist_introduces` : what binds names;
* `Truthful.of_acts` : expressions are truthful if the bodies of the functions that
  they call are.

Design notes: names stay bound since scopes only grow and every computation leaves the scopes
in use as they were.  A call uses other scopes, so of its body nothing is asked for but what
it hoists itself.
-/
import ScriptReplay.Proofs.Unwinding.Calls

namespace ScriptReplay

variable {p : Program} {L : RunLimits} {calls : Nat} {K : Stock p.region}
  {names more : List String} {α β : Type} {m m' : Machine}

/-! ### Names that are bound -/

/-- Some scope that the step shows binds the name. -/
def Step.Binds (s : Step) (name : String) : Prop :=
  ∃ scope ∈ s.scopes, scope.vars.contains name = true

/-- Some scope in use binds the name. -/
def Machine.Binds (m : Machine) (name : String) : Prop :=
  ∃ id ∈ m.chain, m.scopes.binds id name = true

theorem Machine.Binds.step {name : String} (h : m.Binds name) (kind : StepKind)
    (loc : Location) (description : String) : (m.step kind loc description).Binds name := by
  obtain ⟨id, hid, hbinds⟩ := h
  obtain ⟨scope, hscope, hvar⟩ := (Option.any_eq_true _ _).1 hbinds
  exact ⟨scope, List.mem_filterMap.2 ⟨id, List.mem_reverse.2 hid, hscope⟩, hvar⟩

/-- Names stay bound in scopes that have grown, as long as the scopes in use stay in use. -/
theorem Machine.Binds.grown {name : String} (h : m.Binds name) (hg : m.scopes.Grown m'.scopes)
    (hchain : ∀ id ∈ m.chain, id ∈ m'.chain) : m'.Binds name := by
  obtain ⟨id, hid, hbinds⟩ := h
  exact ⟨id, hchain id hid, hg.binds id name hbinds⟩

/-- A linked chain has a scope of a function or of the program, for it ends with the
global one. -/
theorem Scopes.Linked.functionScope_mem {s : Scopes} {chain : Chain} (h : s.Linked chain) :
    s.functionScope chain ∈ chain := by
  have hglobal : Scopes.globalId ∈ chain := List.mem_of_getLast? h.last
  unfold Scopes.functionScope
  cases hfind : chain.find? fun id => (s.get? id).any (·.kind != .block) with
  | some id => exact List.mem_of_find?_eq_some hfind
  | none => exact hglobal

/-- Where a name is declared is one of the scopes in use. -/
theorem Machine.bindingScope_mem (h : m.scopes.Linked m.chain) (kind : DeclKind) :
    m.bindingScope kind ∈ m.chain := by
  have hhead : m.chain.headD Scopes.globalId ∈ m.chain := by
    cases hchain : m.chain with
    | nil => exact absurd hchain h.ne_nil
    | cons id rest => exact List.mem_cons_self
  cases kind with
  | var => exact h.functionScope_mem
  | _ => exact hhead

/-! ### Statements that declare -/

/-- The statement declares the name, and a step with these words tells of that. -/
def Stmt.Tells : Stmt → String → String → Prop
  | .declare kind declarators _, name, words =>
    name ∈ declarators.map (·.name) ∧ ∃ text,
      words = "Declare " ++ kind.text ++ " " ++ name ++ " = " ++ text
  | .function r _, name, words =>
    r.name = some name ∧ words = "Function " ++ name ++ " declared"
  | _, _, _ => False

/-- The name of the function that a statement declares. -/
def Stmt.functionName? : Stmt → Option String
  | .function r _ => r.name
  | _ => none

/-- The names of the functions among some statements, which are bound before the
first of them. -/
def hoistedNames (body : List Stmt) : List String :=
  body.filterMap Stmt.functionName?

/-- The statements directly inside a statement that stand in no list: branches, bodies of
loops, and what a counting loop does first. -/
def Stmt.lone : Stmt → List Stmt
  | .ifElse _ yes no _ => yes :: no.toList
  | .forLoop init _ _ body _ => body :: init.toList
  | .forOf _ _ _ body _ | .whileLoop _ body _ | .doWhile body _ _ => [body]
  | _ => []

/-- A statement of the program that stands in no list. -/
def Program.StandsAlone (p : Program) (t : Stmt) : Prop :=
  ∃ outer, p.region.has (.stmt outer) ∧ t ∈ outer.lone

/-- The step tells that a statement of the program, which stands where the step points,
declares the name. -/
structure Step.Declares (s : Step) (p : Program) (t : Stmt) (name : String) : Prop where
  has : p.region.has (.stmt t)
  loc_eq : t.loc = s.loc
  tells : t.Tells name s.description

/-- If the step is one of a declaration, it tells of a statement of the program and shows the
name bound, unless that is a function that stands alone. -/
def Step.Honest (s : Step) (p : Program) : Prop :=
  s.kind = .declaration → ∃ t name, s.Declares p t name ∧
    (s.Binds name ∨ p.StandsAlone t ∧ t.functionName? = some name)

/-- All steps so far are honest. -/
def Machine.Honest (m : Machine) (p : Program) : Prop :=
  ∀ s ∈ m.trace.newest, s.Honest p

theorem Step.honest_of_kind {s : Step} (h : s.kind ≠ .declaration) : s.Honest p :=
  fun hkind => absurd hkind h

theorem Machine.Honest.of_trace (h : m.Honest p) (htrace : m'.trace = m.trace) :
    m'.Honest p :=
  fun s hs => h s (htrace ▸ hs)

theorem Machine.Honest.recorded (h : m.Honest p) {kind : StepKind} {loc : Location}
    {description : String} (hs : (m.step kind loc description).Honest p) :
    (m.recorded kind loc description).Honest p := by
  intro s hmem
  rcases List.mem_cons.1 hmem with rfl | hmem
  · exact hs
  · exact h s hmem

/-! ### Outcomes -/

theorem Machine.Honest.record (h : m.Honest p) {kind : StepKind} {loc : Location}
    {description : String} (hs : (m.step kind loc description).Honest p) :
    ((ScriptReplay.record kind loc description).outcome L m).2.Honest p := by
  rw [Run.outcome_record]
  split
  · exact h.recorded hs
  · exact h

theorem Machine.Honest.tell (h : m.Honest p) {kind : StepKind} (hk : kind ≠ .declaration)
    (loc : Location) (recorded : Bool) (words : Heap → String) :
    ((ScriptReplay.tell recorded kind loc words).outcome L m).2.Honest p := by
  rw [Run.outcome_tell]
  split
  · exact h.record (Step.honest_of_kind hk)
  · exact h

/-- What comes after an outcome with honest steps. -/
theorem honest_follow {o : Except Stop α × Machine}
    {k : α → Machine → Except Stop β × Machine} (h : o.2.Honest p)
    (hk : ∀ a m, o = (.ok a, m) → m.Honest p → (k a m).2.Honest p) :
    (Run.follow o k).2.Honest p := by
  rcases o with ⟨stop | a, m⟩
  · exact h
  · exact hk a m rfl h

/-! ### Truthful computations -/

/-- A state from which a computation may start: the program keeps to its scopes, the values at
hand are sound, the ceiling allows some more calls inside one another, some names are bound,
and all steps so far are honest. -/
structure Machine.Ready (m : Machine) (p : Program) (L : RunLimits) (calls : Nat)
    (K : Stock p.region) (names : List String) : Prop where
  inv : (Discipline.scoping p).inv L m
  stock : K ≤ (Discipline.scoping p).stock m
  depth : L.maxCallDepth ≤ m.stack.depth + calls
  binds : ∀ name ∈ names, m.Binds name
  honest : m.Honest p

/-- A computation that keeps to the program and only adds honest steps where some
names are bound. -/
structure Truthful (p : Program) (L : RunLimits) (calls : Nat) (K : Stock p.region)
    (names : List String) [Carries α] (x : Run α) : Prop where
  safe : (Discipline.scoping p).Safe K x
  honest : ∀ m, m.Ready p L calls K names → (x.outcome L m).2.Honest p

/-- A computation after which more names are bound. -/
def Introduces (p : Program) (L : RunLimits) (K : Stock p.region) (more : List String)
    (x : Run α) : Prop :=
  ∀ m m' a, (Discipline.scoping p).inv L m → K ≤ (Discipline.scoping p).stock m →
    x.outcome L m = (.ok a, m') →
    ∀ name ∈ more, m'.Binds name

theorem introduces_nil (x : Run α) : Introduces p L K [] x :=
  fun _ _ _ _ _ _ _ hname => absurd hname List.not_mem_nil

/-- After an answer the state is ready again, for all values that are sound then. -/
theorem Machine.Ready.next [Carries α] (h : m.Ready p L calls K names) {a : α}
    (hends : (Discipline.scoping p).Ends L m (.ok a, m')) (hhonest : m'.Honest p)
    (hmore : ∀ name ∈ more, m'.Binds name) :
    m'.Ready p L calls ((Discipline.scoping p).stock m') (more ++ names) := by
  obtain ⟨hinv, hgrown, hrestored, -⟩ := hends
  refine ⟨hinv, Stock.le_refl _, ?_, fun name hname => ?_, hhonest⟩
  · rw [CallStack.depth_eq_of_shells hrestored.frames]
    exact h.depth
  · rcases List.mem_append.1 hname with hname | hname
    · exact hmore name hname
    · exact (h.binds name hname).grown hgrown fun id hid => hrestored.chain.symm ▸ hid

/-- The same scopes in use inside another one. -/
theorem Machine.Ready.opened (h : m.Ready p L calls K names) (name : String) :
    (m.inScope .block name m.chain).Ready p L calls K names := by
  obtain ⟨hinv, hgrown⟩ := (Discipline.scoping p).opened name h.inv
  exact ⟨hinv, Stock.le_trans h.stock (Discipline.stock_later hgrown), h.depth,
    fun name' hname => (h.binds name' hname).grown hgrown fun id hid =>
    List.mem_cons_of_mem _ hid, h.honest⟩

namespace Truthful

variable [Carries α] [Carries β] {x : Run α}

theorem mono (h : Truthful p L calls K names x) {K' : Stock p.region} (hK : K ≤ K') :
    Truthful p L calls K' names x :=
  ⟨h.safe.mono hK, fun m hm => h.honest m { hm with stock := Stock.le_trans hK hm.stock }⟩

/-- More bound names do no harm. -/
theorem weaken (h : Truthful p L calls K names x) {names' : List String}
    (hnames : ∀ name ∈ names, name ∈ names') : Truthful p L calls K names' x :=
  ⟨h.safe, fun m hm =>
    h.honest m { hm with binds := fun name hname => hm.binds name (hnames name hname) }⟩

theorem pure {a : α} (ha : Carries.within K.has a) :
    Truthful p L calls K names (Pure.pure a) :=
  ⟨.pure ha, fun _ hm => hm.honest⟩

theorem throw {s : Stop} (hs : s.IsPlaced p.region) :
    Truthful p L calls K names (MonadExcept.throw s : Run α) :=
  ⟨.throw hs, fun _ hm => hm.honest⟩

theorem fail {cause : Cause} {loc : Location} (hloc : p.region.Place loc) :
    Truthful p L calls K names (failAt cause loc : Run α) :=
  throw (Stop.isPlaced_at hloc _)

/-- A computation that binds names, and what follows where they are bound. -/
theorem bindNew {f : α → Run β} (hx : Truthful p L calls K names x)
    (hmore : Introduces p L K more x)
    (hf : ∀ a (K' : Stock p.region), K ≤ K' → Carries.within K'.has a →
      Truthful p L calls K' (more ++ names) (f a)) :
    Truthful p L calls K names (x >>= f) := by
  refine ⟨hx.safe.bind fun a K' hK ha => (hf a K' hK ha).safe, fun m hm => ?_⟩
  rw [Run.outcome_bind]
  refine honest_follow (hx.honest m hm) fun a m' ho hhonest => ?_
  have hends := hx.safe L m hm.inv hm.stock
  rw [ho] at hends
  have hready := hm.next hends hhonest (hmore m m' a hm.inv hm.stock ho)
  exact (hf a _ (Stock.le_trans hm.stock (Discipline.stock_later hends.2.1))
    hends.2.2.2).honest m' hready

theorem bind {f : α → Run β} (hx : Truthful p L calls K names x)
    (hf : ∀ a (K' : Stock p.region), K ≤ K' → Carries.within K'.has a →
      Truthful p L calls K' names (f a)) :
    Truthful p L calls K names (x >>= f) :=
  hx.bindNew (introduces_nil x) hf

/-- A computation whose answer brings no new values, and what follows. -/
theorem andThen {f : α → Run β} (hx : Truthful p L calls K names x)
    (hf : ∀ a, Truthful p L calls K names (f a)) : Truthful p L calls K names (x >>= f) :=
  hx.bind fun a _ hK _ => (hf a).mono hK

theorem ceilings {f : RunLimits → Run α} (hf : ∀ L', Truthful p L calls K names (f L')) :
    Truthful p L calls K names (read >>= f) := by
  refine ⟨fun L' m hm hK => ?_, fun m hm => ?_⟩
  · rw [Run.outcome_read_bind]
    exact (hf L').safe L' m hm hK
  · rw [Run.outcome_read_bind]
    exact (hf L).honest m hm

theorem record {kind : StepKind} {loc : Location} {description : String} (hk : kind ≠ .error)
    (hloc : p.region.Place loc)
    (hs : ∀ m : Machine, (∀ name ∈ names, m.Binds name) →
      (m.step kind loc description).Honest p) :
    Truthful p L calls K names (ScriptReplay.record kind loc description) :=
  ⟨.record hk hloc _, fun m hm => hm.honest.record (hs m hm.binds)⟩

theorem change (c : Change) (hv : ∀ v ∈ c.values, K.has v) (hc : c.Fits p.region) :
    Truthful p L calls K names (modify c.apply) :=
  ⟨.change c hv hc, fun m hm => hm.honest.of_trace (c.kept m).2.1⟩

theorem block {x : Run Completion} (hx : Truthful p L calls K names x) (name : String) :
    Truthful p L calls K names (inLoopScope name x) := by
  refine ⟨hx.safe.block name, fun m hm => ?_⟩
  rw [Run.outcome_inLoopScope]
  exact honest_follow (hx.honest _ (hm.opened name)) fun _ m' _ hhonest =>
    hhonest.of_trace (Machine.Quiet.outOfScope m').trace_eq

end Truthful

/-! ### What binds names -/

theorem Introduces.bind [Carries α] [Carries β] {more' : List String} {x : Run α}
    {f : α → Run β} (hx : Introduces p L K more x) (hsafe : (Discipline.scoping p).Safe K x)
    (hf : ∀ a (K' : Stock p.region), K ≤ K' → Carries.within K'.has a →
      Introduces p L K' more' (f a) ∧ (Discipline.scoping p).Safe K' (f a)) :
    Introduces p L K (more ++ more') (x >>= f) := by
  intro m m' b hm hK ho name hname
  rw [Run.outcome_bind] at ho
  obtain ⟨a, m₁, ho₁, ho⟩ := Run.follow_eq_ok ho
  have hends := hsafe L m hm hK
  rw [ho₁] at hends
  obtain ⟨hm₁, hgrown, -, ha⟩ := hends
  obtain ⟨hrest, hrestSafe⟩ := hf a _ (Stock.le_trans hK (Discipline.stock_later hgrown)) ha
  rcases List.mem_append.1 hname with hname | hname
  · -- What follows leaves the scopes in use, and what is bound in them.
    have hends' := hrestSafe L m₁ hm₁ (Stock.le_refl _)
    rw [ho] at hends'
    obtain ⟨-, hgrown', hrestored, -⟩ := hends'
    exact (hx m m₁ a hm hK ho₁ name hname).grown hgrown' fun id hid =>
      hrestored.chain.symm ▸ hid
  · exact hrest m₁ m' b hm₁ (Stock.le_refl _) ho name hname

theorem declareName_introduces (kind : DeclKind) (name : String) (value : Value) :
    Introduces p L K [name] (declareName kind name value) := by
  intro m m' a hm _ ho name' hname
  obtain rfl := List.mem_singleton.1 hname
  rw [declareName_eq, Run.outcome_get_bind, Run.outcome_modify] at ho
  cases ho
  have hmem := Machine.bindingScope_mem hm.1.chain kind
  have hlt := hm.1.chain.lt_size hm.1.scopes _ hmem
  refine ⟨m.bindingScope kind, ?_, ?_⟩
  · rw [((Change.bind (m.bindingScope kind) name' value (kind == .const)).kept m).1]
    exact hmem
  · rw [Change.scopes_bind]
    exact Scopes.binds_declare_self hlt name' value _

/-- When a list of statements begins, the names of all functions in it are bound. -/
theorem hoist_introduces {body : List Stmt} (hb : ∀ s ∈ body, p.region.has (.stmt s)) :
    Introduces p L K (hoistedNames body) (hoist body) := by
  induction body generalizing K with
  | nil => exact introduces_nil _
  | cons s rest ih =>
    have hrest : ∀ s ∈ rest, p.region.has (.stmt s) :=
      fun s' h => hb s' (List.mem_cons_of_mem _ h)
    have hsafe : ∀ K : Stock p.region, (Discipline.scoping p).Safe K (hoist rest) := fun _ =>
      (Discipline.safe_of_acts (hoist_acts (G := .none) hrest)).1
    cases s with
    | function r l =>
      have hr : p.region.has (.routine r) :=
        p.region.part (hb _ List.mem_cons_self) List.mem_cons_self
      unfold hoist
      cases hname : r.name with
      | none =>
        have hnames : hoistedNames (.function r l :: rest) = hoistedNames rest :=
          List.filterMap_cons_none hname
        rw [hnames]
        exact ih hrest
      | some name =>
        have hnames : hoistedNames (.function r l :: rest) = [] ++
            ([name] ++ hoistedNames rest) :=
          List.filterMap_cons_some hname
        rw [hnames]
        refine (introduces_nil _).bind (.makeFunction hr (by simp)) fun v K' _ hv => ⟨?_, ?_⟩
        · refine (declareName_introduces .letK name v).bind ?_ fun _ K'' _ _ =>
            ⟨ih hrest, hsafe K''⟩
          exact (Discipline.safe_of_acts (declareName_acts (G := .none) .letK name hv)).1
        · refine Discipline.Safe.bind ?_ fun _ K'' _ _ => hsafe K''
          exact (Discipline.safe_of_acts (declareName_acts (G := .none) .letK name hv)).1
    | _ => exact ih hrest

/-! ### Calls -/

/-- The bodies of all functions of the program are truthful, whatever is bound, where the
ceiling allows some more calls inside them. -/
def HonestBodies (p : Program) (L : RunLimits) (calls : Nat) : Prop :=
  ∀ fuel r this (K : Stock p.region), p.region.has (.routine r) →
    (∀ v, this = some v → K.has v) → Truthful p L calls K [] (callBody (walker fuel) r this)

/-- Parameters are bound honestly if their fallbacks are evaluated so; without fallbacks
nothing is told. -/
theorem bindParams_honest {w : Walker} {shown name : String} {r : Routine} {chain : Chain}
    {args : List Value} (hf : K.has (.function (.script name r chain)))
    (hbind : ¬ p.region.NoFallbacks → ∀ scope,
      Truthful p L calls K [] (bindParams w scope .empty r.params args))
    (h : m.Ready p L calls K names) :
    ((bindParams w m.scopes.size .empty r.params args).outcome L
      (m.inScope .function shown chain)).2.Honest p := by
  by_cases hN : p.region.NoFallbacks
  · -- Nothing is evaluated while the parameters are not bound yet.
    obtain ⟨bound, m₁, ho, hquiet⟩ :=
      bindParams_quiet (w := w) (hN r (K.legal hf).1) m.scopes.size .empty args L
      (m.inScope .function shown chain)
    rw [ho]
    exact h.honest.of_trace hquiet.trace_eq
  · obtain ⟨hbare, hgrown⟩ := (Discipline.scoping p).entered shown h.inv (h.stock _ hf)
    refine (hbind hN m.scopes.size).honest _
      ⟨((Discipline.scoping p).bare_iff hN).1 hbare, ?_, h.depth, ?_, h.honest⟩
    · exact Stock.le_trans h.stock (Discipline.stock_later hgrown)
    · exact fun _ hname => absurd hname List.not_mem_nil

/-- A call only adds honest steps if its fallbacks do, and its body where one call less
is allowed. -/
theorem toldCall_honest {w : Walker} {shown name : String} {r : Routine} {chain : Chain}
    {args : List Value} {loc : Location} {body : Run Value}
    (hf : K.has (.function (.script name r chain))) (hargs : ∀ v ∈ args, K.has v)
    (hbind : ¬ p.region.NoFallbacks → ∀ scope,
      Truthful p L calls K [] (bindParams w scope .empty r.params args))
    (hloc : p.region.Place loc)
    (hbody : ∀ inner, calls = inner + 1 → Truthful p L inner K [] body) (recorded : Bool)
    (h : m.Ready p L calls K names) :
    ((toldCall recorded w shown r chain args loc body).outcome L m).2.Honest p := by
  rw [Run.outcome_toldCall]
  by_cases hlimit : L.maxCallDepth ≤ m.stack.depth
  · rw [if_pos hlimit]
    exact h.honest
  rw [if_neg hlimit]
  refine honest_follow (bindParams_honest hf hbind h) fun params m₁ ho hbound => ?_
  obtain ⟨hm₂, hgrown, hrestored, -⟩ := Discipline.inv_pushed h.inv h.stock hf hargs
    (fun hN => (hbind hN m.scopes.size).safe) (Nat.lt_of_not_le hlimit) ho loc r.bodyLoc.line
  have hdepth := h.depth
  obtain ⟨inner, rfl⟩ := Nat.exists_eq_add_one_of_ne_zero (show calls ≠ 0 by omega)
  -- In the body one call less is allowed, and the frame of this one is there.
  have hinside :
      (m₁.pushed shown params loc r.bodyLoc.line m.scopes.size).Ready p L inner K [] := by
    refine ⟨hm₂, Stock.le_trans h.stock (Discipline.stock_later hgrown), ?_, ?_, hbound⟩
    · have hdepth₁ : m₁.stack.depth = m.stack.depth :=
        CallStack.depth_eq_of_shells hrestored.frames
      show L.maxCallDepth ≤ m₁.stack.depth + 1 + inner
      omega
    · exact fun _ hname => absurd hname List.not_mem_nil
  have hopen : Truthful p L inner K [] (tell recorded .call loc (callWords shown params)) :=
    ⟨.tell (by decide) hloc _ _, fun _ hm => hm.honest.tell (by decide) _ _ _⟩
  have hthrough := (hopen.andThen fun _ => hbody inner rfl).honest _ hinside
  rw [Run.outcome_bind] at hthrough
  rw [← Run.follow_follow]
  refine honest_follow hthrough fun v m₃ _ hbody₃ => ?_
  have hpopped : (m₃.popped m.chain).Honest p := hbody₃
  exact honest_follow (hpopped.tell (by decide) _ _ _) fun _ _ _ hclosed => hclosed

/-! ### Expressions -/

/-- What is made of the actions of expressions adds no step of a declaration but in the calls
that it makes. -/
theorem honest_of_acts {G : Gap} {K : Stock p.region} [Carries α] {x y : Run α}
    (h : Acts G K x y) (hG : G = .alone)
    (hbodies : ∀ inner, calls = inner + 1 → HonestBodies p L inner) :
    ∀ m, m.Ready p L calls K [] → (x.outcome L m).2.Honest p := by
  induction h with
  | pure _ => exact fun m hm => hm.honest
  | @bind G K α β _ _ x y f g hx _ ihx ihf =>
    intro m hm
    have hends := (Discipline.safe_of_acts hx).1 L m hm.inv hm.stock
    rw [Run.outcome_bind]
    refine honest_follow (ihx hG m hm) fun a m' ho hhonest => ?_
    rw [ho] at hends
    have hstock := Stock.le_trans hm.stock (Discipline.stock_later hends.2.1)
    have hready :=
      hm.next hends hhonest fun name (hname : name ∈ []) => absurd hname List.not_mem_nil
    exact ihf a _ hstock hends.2.2.2 hG m' hready
  | @look G K α _ f g _ ih =>
    intro m hm
    rw [Run.outcome_get_bind]
    have hheld : ∀ v, m.Holds v → ((Discipline.scoping p).stock m).has v := fun v hv =>
      (Discipline.scoping p).sound_held hm.inv hv
    exact ih m m _ (.refl m) hm.stock hheld
      (fun _ => trivial) hG m { hm with stock := Stock.le_refl _ }
  | ceilings _ ih =>
    intro m hm
    rw [Run.outcome_read_bind]
    exact ih L L (Gap.between_self _ L) ⟨trivial, trivial⟩ ⟨trivial, trivial⟩ hG m hm
  | fail _ => exact fun m hm => hm.honest
  | stopAtCeiling hraised _ _ _ _ =>
    rw [hraised] at hG
    cases hG
  | noFuel _ => exact fun m hm => hm.honest
  | stopWithoutFuel hdiffers _ _ =>
    rw [hG] at hdiffers
    exact hdiffers.elim
  | record hk _ => exact fun m hm => hm.honest.record (Step.honest_of_kind (hk.undeclared hG))
  | @say G K line kind loc description hk _ =>
    intro m hm
    have hprinted : ((Change.print line).apply m).Honest p := hm.honest
    unfold say
    rw [Run.outcome_bind_ok (Run.outcome_modify _ _ _)]
    exact hprinted.record (Step.honest_of_kind (hk.undeclared hG))
  | change c _ _ _ => exact fun m hm => hm.honest.of_trace (c.kept m).2.1
  | newSlot _ _ => exact fun m hm => hm.honest
  | makeFunction _ _ => exact fun m hm => hm.honest
  | @block G K name x y hx ih =>
    have hblock : Truthful p L calls K [] x := ⟨(Discipline.safe_of_acts hx).1, ih hG⟩
    exact (hblock.block name).honest
  | @call G K w w' shown name r chain args loc recorded body body' hf hargs hloc
      hbind hserves _ ihbind _ =>
    intro m hm
    obtain ⟨fuel, this, hthis, rfl⟩ := hserves hG
    refine toldCall_honest hf hargs (fun hN scope => ?_) hloc
      (fun inner hinner => ?_) recorded hm
    · exact ⟨(Discipline.safe_of_acts (hbind hN scope)).1, ihbind hN scope hG⟩
    · exact hbodies inner hinner fuel r this K (K.legal hf).1 hthis

theorem Truthful.of_acts [Carries α] {x y : Run α} (h : Acts .alone K x y)
    (hbodies : ∀ inner, calls = inner + 1 → HonestBodies p L inner) :
    Truthful p L calls K names x :=
  weaken ⟨(Discipline.safe_of_acts h).1, honest_of_acts h rfl hbodies⟩ fun _ hname =>
    absurd hname List.not_mem_nil

end ScriptReplay
