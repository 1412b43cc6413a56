import ThreadJs.Exports.Calls

/-!
Which library functions a thread can reach.

A namespace that cannot be written between quotes is not read back, and the empty namespace is
written as `null` and looked up under "null" on the main side, so that the functions of both are
never found (`Exported.quotable`). A name that is taken on the object of the namespace makes
the script call `send` on this object, which has one only if the table has put it there
before. Without these, and where the name can be assigned at all, every function is
reached with its arguments (`exported_iff_puts`).
-/

namespace ThreadJs.Exports

open Js
open JsonText (units)

/-! ### The namespaces of requests -/

/-- The namespaces of all proxies have a property. -/
structure Scope.Within (P : Option String → Prop) (s : Scope) : Prop where
  assigned : ∀ n p, s.assigned.lookup n = some (.proxy p) → P p.ns
  members : ∀ k p, s.members.lookup k = some p → P p.ns

variable {E : Engine} {s : Scope} {libs : Libs}

theorem thread_eq_function {name : String} {p : Proxy} (h : s.thread E name = .function p) :
    s.assigned.lookup name = some (.proxy p) := by
  unfold Scope.thread at h
  split at h
  · cases h
  · cases h
    assumption
  · split at h <;> cases h

theorem member_eq_function {t : Target} {name : String} {p : Proxy}
    (h : s.member E t name = .function p) : s.members.lookup (t, name) = some p := by
  unfold Scope.member at h
  split at h
  · cases h
    assumption
  · cases h

theorem mem_sent_send {r r' : Request} (h : r ∈ (s.send E r').sent) : r = r' := by
  unfold Scope.send at h
  split at h
  · exact List.mem_singleton.mp h
  · cases h

section Within

variable {P : Option String → Prop}

/-- A call sends requests for namespaces of proxies only. -/
theorem Scope.Within.call (within : s.Within P) {p : Proxy} (hp : P p.ns) {stack id : ℕ}
    {args : List Arg} {r : Request} (hr : r ∈ (p.call E s stack id args).sent) : P r.ns := by
  induction stack generalizing id p args with
  | zero => cases hr
  | succ stack ih =>
      rw [Proxy.call] at hr
      split at hr
      · cases hr
      split at hr
      · split at hr
        · split at hr
          · -- The listener is registered with the emitter.
            have sent : r ∈ [] ++ (s.send E _).sent := hr
            rw [mem_sent_send sent]
            exact hp
          · next q hq =>
              dsimp only at hr
              split at hr
              · exact ih (within.assigned _ _ (thread_eq_function hq)) hr
              · rcases List.mem_append.mp hr with hr | hr
                · exact ih (within.assigned _ _ (thread_eq_function hq)) hr
                · rw [mem_sent_send hr]
                  exact hp
          · cases hr
        · cases hr
      · rw [mem_sent_send hr]
        exact hp

theorem Scope.Within.callFunction (within : s.Within P) {id : ℕ} {ns fname : String}
    {args : List Arg} {r : Request} (hr : r ∈ (callFunction E s id ns fname args).sent) :
    P r.ns := by
  have property : ∀ t p, s.member E t fname = .function p →
      r ∈ (p.call E s (E.stack + 1) id args).sent → P r.ns :=
    fun t p hp => within.call (within.members _ _ (member_eq_function hp))
  unfold Exports.callFunction at hr
  split at hr
  · split at hr
    · next p hp => exact within.call (within.assigned _ _ (thread_eq_function hp)) hr
    · cases hr
    · cases hr
  · split at hr
    · cases hr
    · cases hr
    · dsimp only at hr
      split at hr
      · next p hp => exact property _ p hp hr
      · cases hr
    · dsimp only at hr
      split at hr
      · next p hp => exact property _ p hp hr
      · cases hr

theorem within_start : Scope.start.Within P where
  assigned := fun n p h => by cases h
  members := fun k p h => by cases h

/-- The property that an assignment to a namespace object adds. -/
def Scope.put (s : Scope) (t : Target) (p : Proxy) : Scope :=
  { s with members := ((t, p.name), p.closure) :: s.members }

theorem bind_scope (t : Target) (p : Proxy) :
    (s.bind E t p).2 = s.put t p ∨ (s.bind E t p).2 = s := by
  unfold Scope.bind
  cases s.member E t p.name with
  | function q => exact .inl rfl
  | slot slot =>
      obtain ⟨truthy, writable⟩ := slot
      cases writable with
      | true => exact .inl rfl
      | false => exact .inr rfl

theorem Scope.Within.bind (within : s.Within P) {p : Proxy} (hp : P p.ns) (t : Target) :
    (s.bind E t p).2.Within P := by
  rcases bind_scope (E := E) (s := s) t p with h | h
  · rw [h]
    refine ⟨within.assigned, fun k q hq => ?_⟩
    rw [Scope.put, List.lookup_cons] at hq
    split at hq
    · cases hq
      exact hp
    · exact within.members k q hq
  · rw [h]
    exact within

/-- An own property of `thread` that is no proxy, or one of such a namespace. -/
theorem Scope.Within.assign (within : s.Within P) (name : String) {a : Assigned}
    (ha : ∀ p, a = .proxy p → P p.ns) :
    Scope.Within P { s with assigned := (name, a) :: s.assigned } := by
  refine ⟨fun n p hp => ?_, within.members⟩
  rw [List.lookup_cons] at hp
  split at hp
  · exact ha p (Option.some.inj hp)
  · exact within.assigned n p hp

theorem Scope.Within.create (within : s.Within P) {p : Proxy} (hp : P p.ns) :
    (createFunctionProxy E s p).2.Within P := by
  have closure : P p.closure.ns := hp
  unfold createFunctionProxy
  split
  · exact within.assign p.name fun q hq => by
      cases hq
      exact closure
  · split
    · exact (within.assign _ (by simp)).bind hp _
    · exact within
    · exact within.bind hp _
    · exact within.bind hp _

theorem Scope.Within.run (within : s.Within P) {ps : List Proxy} (hps : ∀ p ∈ ps, P p.ns) :
    (runScript E s ps).2.Within P := by
  induction ps generalizing s with
  | nil => exact within
  | cons p ps ih =>
      have next := within.create (E := E) (hps p List.mem_cons_self)
      rw [runScript]
      dsimp only
      split
      · exact next
      · exact ih next fun q hq => hps q (List.mem_cons_of_mem _ hq)

end Within

/-- Requests are for namespaces that the script has passed. -/
theorem load_ns {ps : List Proxy} {id : ℕ} {ns fname : String} {args : List Arg} {r : Request}
    (hr : r ∈ ((load E ps).call id ns fname args).sent) : ∃ p ∈ ps, r.ns = p.ns := by
  rw [load] at hr
  split at hr
  · exact E.inheritedNs ps id ns fname args r hr
  · have within : (runScript E .start ps).2.Within fun n => ∃ p ∈ ps, n = p.ns :=
      within_start.run fun p hp => ⟨p, hp, rfl⟩
    exact within.callFunction hr

/-- As many arguments as the function takes, all of them `undefined`. -/
theorem takes_undefined (lib : Lib) :
    lib.takes (lib.arguments (List.replicate lib.argc.toNat none)) := by
  rw [Lib.takes, Lib.arguments]
  split
  · cases lib.ret <;> simp <;> omega
  · intro ret
    simp [ret]

/-- A call of the script asks for the namespace, under which `null` stands for "null". -/
theorem Reaches.call {ps : List Proxy} {ns fname : String} {lib : Lib}
    (reaches : Reaches libs (load E ps) ns fname lib) : ∃ p ∈ ps, p.ns.getD "null" = ns := by
  obtain ⟨-, args, sent, -⟩ := reaches.accepted 0 _ (takes_undefined lib)
  have one := List.mem_filterMap.mp (sent ▸ List.mem_singleton_self _)
  obtain ⟨r, hr, handled⟩ := one
  obtain ⟨_, -, handled⟩ := Option.map_eq_some_iff.mp handled
  obtain ⟨p, hp, same⟩ := load_ns hr
  refine ⟨p, hp, ?_⟩
  rw [← same]
  exact (Prod.mk.inj handled).1

/-- Behind every proxy there is a call of the program. -/
theorem mem_of_libScript {code : List Char} {ps : List Proxy}
    (script : libScript code = some ps) {p : Proxy} (hp : p ∈ ps) :
    ∃ calls, Source.program (units code) = some calls ∧ ∃ c ∈ calls, proxyOf c = some p := by
  obtain ⟨-, read⟩ := Option.ite_none_left_eq_some.mp script
  obtain ⟨calls, program, h⟩ := Option.bind_eq_some_iff.mp read
  refine ⟨calls, program, ?_⟩
  clear program script read
  induction calls generalizing ps with
  | nil =>
      cases h
      cases hp
  | cons c calls ih =>
      rw [List.mapM_cons] at h
      obtain ⟨q, first, h⟩ := Option.bind_eq_some_iff.mp h
      obtain ⟨qs, later, h⟩ := Option.bind_eq_some_iff.mp h
      obtain rfl : q :: qs = ps := Option.some.inj h
      rcases List.mem_cons.mp hp with rfl | hp
      · exact ⟨c, List.mem_cons_self, first⟩
      · obtain ⟨d, hd, proxy⟩ := ih hp later
        exact ⟨d, List.mem_cons_of_mem _ hd, proxy⟩

theorem calls_named {p : Proxy} (hp : p ∈ libs.calls) : p.ns ≠ some "" := by
  obtain ⟨e, -, rfl⟩ := List.mem_map.mp hp
  rw [Entry.proxy]
  split
  · simp
  · next named =>
      intro h
      exact named (Option.some.inj h)

/-- No request gets to a function whose namespace is not written as it is. -/
theorem Exported.quotable (exported : Exported E libs) {e : Entry} (he : e ∈ libs.entries) :
    Quotable e.ns := by
  obtain ⟨calls, script, -, reached⟩ := exported
  have asked : ∀ e ∈ libs.entries, ∃ p ∈ calls, p.ns.getD "null" = e.ns :=
    fun e he => (reached _ _ _ (mem_entries.mp he)).call
  have plain : ∀ e ∈ libs.entries, Source.Plain (units e.ns.toList) := by
    apply plain_of_occurs
    intro e he special
    obtain ⟨p, hp, ns⟩ := asked e he
    cases named : p.ns with
    | none =>
        rw [named] at ns
        have null : Source.Plain (units "null".toList) := by decide
        have same : "null" = e.ns := ns
        rw [same] at null
        exact absurd null special
    | some ns' =>
        rw [named] at ns
        obtain rfl : ns' = e.ns := ns
        obtain ⟨cs, program, c, hc, proxy⟩ := mem_of_libScript script hp
        exact Source.Occurs.of_program program hc (argument_of_proxyOf proxy named)
  have noNul : ∀ e ∈ libs.entries, '\u0000' ∉ e.ns.toList := by
    intro e he nul
    obtain ⟨notCut, -⟩ := Option.ite_none_left_eq_some.mp script
    exact notCut (nul_mem_exportsLibsCode he nul)
  refine ⟨?_, plain e he, noNul e he⟩
  intro empty
  rw [libScript_exports plain noNul] at script
  obtain rfl := Option.some.inj script
  obtain ⟨p, hp, ns⟩ := asked e he
  rw [empty] at ns
  cases named : p.ns with
  | none => simp [named] at ns
  | some ns' =>
      rw [named] at ns
      obtain rfl : ns' = "" := ns
      exact calls_named hp named

/-! ### Namespaces that are written as they are -/

/-- The object on which the functions of a namespace are put. -/
def Engine.target (E : Engine) (ns : String) : Target :=
  match E.host ns with
  | none => .table ns
  | some _ => .host ns

theorem target_inj {ns ns' : String} (h : E.target ns = E.target ns') : ns = ns' := by
  unfold Engine.target at h
  split at h <;> split at h <;> cases h <;> rfl

theorem slot_number {ns : String} (number : E.host ns = some .number) (fname : String) :
    E.slot ns fname = ⟨false, false⟩ := by
  rw [Engine.slot, number]

/-- `thread` has got an object for each namespace, and no other property. -/
def Scope.Tables (E : Engine) (done : List Entry) (s : Scope) : Prop :=
  ∀ n a, s.assigned.lookup n = some a ↔ a = .table ∧ E.host n = none ∧ ∃ e ∈ done, e.ns = n

/-- The proxies are on the objects of their namespaces, where these can be assigned. -/
def Scope.Members (E : Engine) (done : List Entry) (s : Scope) : Prop :=
  ∀ t f q, s.members.lookup (t, f) = some q ↔
    ∃ e ∈ done, E.target e.ns = t ∧ e.name = f ∧
      (E.slot e.ns f).writable = true ∧ q = e.proxy.closure

/-- What the script has done after the calls for these functions. -/
structure Inv (E : Engine) (done : List Entry) (s : Scope) : Prop where
  tables : s.Tables E done
  members : s.Members E done

section Context

variable {done : List Entry}

theorem host_context {name : String} (h : name ∈ contextProperties) :
    E.host name = some (.object (E.slots name)) := by
  have notId : name ≠ "threadId" := by
    rintro rfl
    simp [contextProperties] at h
  rw [Engine.host, if_neg notId, if_pos (.inl h)]

theorem host_object {name : String} {slots : String → Slot}
    (h : E.host name = some (.object slots)) :
    slots = E.slots name := by
  unfold Engine.host at h
  split at h
  · split at h <;> cases h
  · split at h <;> cases h
    rfl

/-- The functions of `context.js` stay in place. -/
theorem Scope.Tables.context (tables : s.Tables E done) {name : String}
    (h : name ∈ contextProperties) : s.thread E name = .object (.host name) := by
  unfold Scope.thread
  cases found : s.assigned.lookup name with
  | none => rw [host_context h]
  | some a =>
      have none := ((tables name a).mp found).2.1
      rw [host_context h] at none
      cases none

theorem Scope.Tables.send (tables : s.Tables E done) (r : Request) : s.send E r = ⟨[r], false⟩ := by
  rw [Scope.send, tables.context (by simp [contextProperties])]

/-- The request of a call. -/
def Proxy.request (p : Proxy) (id : ℕ) (args : List Arg) : Option Request :=
  if 0 ≤ p.argc ∧ p.argc ≠ args.length then none
  else if p.hasRet then
    match args.getLast? with
    | some .function => some ⟨p.ns, p.name, indexed args.dropLast, args.length - 1, id + 1⟩
    | _ => none
  else some ⟨p.ns, p.name, indexed args, args.length, 0⟩

theorem Scope.Tables.call (tables : s.Tables E done) (stack id : ℕ) (p : Proxy) (args : List Arg) :
    p.call E s (stack + 1) id args = (p.request id args).elim .throw fun r => ⟨[r], false⟩ := by
  have listens : s.thread E (if p.multiple then "on" else "once") =
      .object (.host (if p.multiple then "on" else "once")) := by
    refine tables.context ?_
    cases p.multiple <;> simp [contextProperties]
  rw [Proxy.call, Proxy.request]
  split
  · rfl
  split
  · cases args.getLast? with
    | none => rfl
    | some last =>
        cases last with
        | function =>
            rw [listens]
            dsimp only
            rw [tables.send]
            rfl
        | undefined => rfl
        | json j => rfl
  · rw [tables.send]
    rfl

theorem Inv.start : Inv E [] .start where
  tables := by simp [Scope.Tables, Scope.start]
  members := by simp [Scope.Members, Scope.start]

/-- `if (!bind) bind = thread[namespace] = {}` -/
def Scope.space (E : Engine) (s : Scope) (ns : String) : Scope :=
  match s.thread E ns with
  | .undefined => { s with assigned := (ns, .table) :: s.assigned }
  | _ => s

variable {e : Entry} {ns : String}

theorem Scope.Tables.thread_eq (tables : s.Tables E done) :
    s.thread E ns =
      match E.host ns with
      | none => if ∃ e ∈ done, e.ns = ns then .object (.table ns) else .undefined
      | some .number => .number
      | some (.object _) => .object (.host ns) := by
  unfold Scope.thread
  cases found : s.assigned.lookup ns with
  | some a =>
      obtain ⟨rfl, free, known⟩ := (tables ns a).mp found
      rw [free]
      exact (if_pos known).symm
  | none =>
      cases host : E.host ns with
      | some h => cases h <;> rfl
      | none =>
          have unknown : ¬ ∃ e ∈ done, e.ns = ns := by
            intro known
            have := (tables ns .table).mpr ⟨rfl, host, known⟩
            rw [found] at this
            cases this
          exact (if_neg unknown).symm

theorem Scope.Tables.thread_space (tables : s.Tables E done) (known : ∃ e ∈ done, e.ns = ns)
    (notNumber : E.host ns ≠ some .number) : s.thread E ns = .object (E.target ns) := by
  rw [tables.thread_eq, Engine.target]
  cases host : E.host ns with
  | none => exact if_pos known
  | some h =>
      cases h with
      | number => exact absurd host notNumber
      | object slots => rfl

theorem Scope.Tables.space (tables : s.Tables E done) (e : Entry) :
    (s.space E e.ns).Tables E (done ++ [e]) := by
  have grown : ∀ n, (∃ d ∈ done ++ [e], d.ns = n) ↔ (∃ d ∈ done, d.ns = n) ∨ e.ns = n := by
    simp [or_and_right, exists_or]
  have kept : (E.host e.ns = none → ∃ d ∈ done, d.ns = e.ns) → s.Tables E (done ++ [e]) := by
    intro h n a
    rw [grown, tables n a]
    constructor
    · rintro ⟨table, free, known⟩
      exact ⟨table, free, .inl known⟩
    · rintro ⟨table, free, known | rfl⟩
      · exact ⟨table, free, known⟩
      · exact ⟨table, free, h free⟩
  rw [Scope.space, tables.thread_eq]
  cases host : E.host e.ns with
  | some h =>
      have stays : s.Tables E (done ++ [e]) := by
        apply kept
        intro free
        rw [host] at free
        cases free
      cases h with
      | number => exact stays
      | object slots => exact stays
  | none =>
      by_cases known : ∃ d ∈ done, d.ns = e.ns
      · rw [if_pos known]
        exact kept fun _ => known
      · rw [if_neg known]
        intro n a
        dsimp only
        rw [grown, List.lookup_cons]
        by_cases same : e.ns = n
        · subst same
          simp [host, eq_comm]
        · rw [beq_eq_false_iff_ne.mpr (Ne.symm same)]
          simp only [same, or_false]
          exact tables n a

theorem bind_eq {p : Proxy} {t : Target} {slot : Slot}
    (missing : s.member E t p.name = .slot slot) :
    s.bind E t p =
      (if slot.truthy then s.warn E t p.name else ⟨[], false⟩,
        if slot.writable then s.put t p else s) := by
  unfold Scope.bind
  rw [missing]
  obtain ⟨truthy, writable⟩ := slot
  cases writable <;> rfl

theorem proxy_ns (named : e.ns ≠ "") : e.proxy.ns = some e.ns := if_neg named

/-- `if (namespace)` -/
theorem filter_ns (named : e.ns ≠ "") : e.proxy.ns.filter (· ≠ "") = some e.ns := by
  rw [proxy_ns named, Option.filter_some, if_pos (decide_eq_true named)]

/-- A call for a namespace that is a number. -/
theorem Scope.Tables.create_number (tables : s.Tables E done) (named : e.ns ≠ "")
    (number : E.host e.ns = some .number) :
    createFunctionProxy E s e.proxy =
      (if e.name ∈ numberPrototype then .throw else ⟨[], false⟩, s) := by
  unfold createFunctionProxy
  rw [filter_ns named]
  dsimp only
  rw [tables.thread_eq, number]
  rfl

/-- A call for any other namespace. -/
theorem Scope.Tables.create_bind (tables : s.Tables E done) (named : e.ns ≠ "")
    (notNumber : E.host e.ns ≠ some .number) :
    createFunctionProxy E s e.proxy = (s.space E e.ns).bind E (E.target e.ns) e.proxy := by
  unfold createFunctionProxy Scope.space Engine.target
  rw [filter_ns named]
  dsimp only
  rw [tables.thread_eq]
  cases host : E.host e.ns with
  | some h =>
      cases h with
      | number => exact absurd host notNumber
      | object slots => rfl
  | none =>
      by_cases known : ∃ d ∈ done, d.ns = e.ns
      · rw [if_pos known]
      · rw [if_neg known]

theorem fresh_target (fresh : ∀ d ∈ done, d.key ≠ e.key) {d : Entry} (hd : d ∈ done)
    (target : E.target d.ns = E.target e.ns) (name : d.name = e.name) : False :=
  fresh d hd (Prod.ext (target_inj target) name)

theorem Scope.Members.member (members : s.Members E done) (notNumber : E.host e.ns ≠ some .number)
    (fresh : ∀ d ∈ done, d.key ≠ e.key) :
    s.member E (E.target e.ns) e.name = .slot (E.slot e.ns e.name) := by
  have missing : s.members.lookup (E.target e.ns, e.name) = none := by
    cases found : s.members.lookup (E.target e.ns, e.name) with
    | none => rfl
    | some q =>
        obtain ⟨d, hd, target, name, -⟩ := (members _ _ q).mp found
        exact (fresh_target fresh hd target name).elim
  unfold Scope.member
  rw [missing]
  unfold Engine.slot Engine.target
  cases host : E.host e.ns with
  | none => rfl
  | some h =>
      cases h with
      | number => exact absurd host notNumber
      | object slots => rw [host_object host]

/-- A name that cannot be assigned leaves no property. -/
theorem Scope.Members.skip (members : s.Members E done)
    (fixed : (E.slot e.ns e.name).writable = false) : s.Members E (done ++ [e]) := by
  intro t f q
  rw [members t f q]
  constructor
  · rintro ⟨d, hd, rest⟩
    exact ⟨d, List.mem_append_left _ hd, rest⟩
  · rintro ⟨d, hd, target, name, writable, closure⟩
    rcases List.mem_append.mp hd with hd | last
    · exact ⟨d, hd, target, name, writable, closure⟩
    · obtain rfl := List.mem_singleton.mp last
      rw [← name, fixed] at writable
      cases writable

theorem Scope.Members.put (members : s.Members E done) (fresh : ∀ d ∈ done, d.key ≠ e.key)
    (writable : (E.slot e.ns e.name).writable = true) :
    (s.put (E.target e.ns) e.proxy).Members E (done ++ [e]) := by
  intro t f q
  rw [Scope.put, List.lookup_cons]
  by_cases same : (t, f) = (E.target e.ns, e.proxy.name)
  · obtain ⟨rfl, rfl⟩ := Prod.mk.inj same
    rw [beq_self_eq_true]
    dsimp only
    constructor
    · intro found
      exact ⟨e, List.mem_append_right _ (List.mem_singleton.mpr rfl), rfl, rfl, writable,
        (Option.some.inj found).symm⟩
    · rintro ⟨d, hd, target, name, -, rfl⟩
      rcases List.mem_append.mp hd with hd | last
      · exact (fresh_target fresh hd target name).elim
      · rw [List.mem_singleton.mp last]
  · rw [beq_eq_false_iff_ne.mpr same]
    dsimp only
    rw [members t f q]
    constructor
    · rintro ⟨d, hd, rest⟩
      exact ⟨d, List.mem_append_left _ hd, rest⟩
    · rintro ⟨d, hd, target, name, rest⟩
      rcases List.mem_append.mp hd with hd | last
      · exact ⟨d, hd, target, name, rest⟩
      · obtain rfl := List.mem_singleton.mp last
        exact absurd (Prod.ext target.symm name.symm) same

theorem Scope.Members.space (members : s.Members E done) (ns : String) :
    (s.space E ns).Members E done := by
  unfold Scope.space
  split
  · exact members
  · exact members

/-- A call for a function of a named namespace. -/
theorem Inv.create (inv : Inv E done s) (named : e.ns ≠ "") (fresh : ∀ d ∈ done, d.key ≠ e.key) :
    Inv E (done ++ [e]) (createFunctionProxy E s e.proxy).2 := by
  have tables := inv.tables.space e
  have members := inv.members.space e.ns
  by_cases number : E.host e.ns = some .number
  · have fixed : (E.slot e.ns e.name).writable = false := by rw [slot_number number]
    have same : s.space E e.ns = s := by
      rw [Scope.space, inv.tables.thread_eq, number]
    rw [same] at tables members
    rw [inv.tables.create_number named number]
    exact ⟨tables, members.skip fixed⟩
  · have bound := bind_eq (p := e.proxy) (members.member number fresh)
    rw [inv.tables.create_bind named number, bound]
    cases writable : (E.slot e.ns e.name).writable with
    | true => exact ⟨tables, members.put fresh writable⟩
    | false => exact ⟨tables, members.skip writable⟩

/-! ### Requests -/

theorem closure_argc (e : Entry) : e.proxy.closure.argc =
    if 0 ≤ e.lib.argc ∧ e.lib.ret = true then e.lib.argc + 1 else e.lib.argc := rfl

theorem closure_request (e : Entry) (id : ℕ) (args : List Arg) :
    e.proxy.closure.request id args =
      if 0 ≤ e.lib.argc ∧ e.lib.argc + (if e.lib.ret then 1 else 0) ≠ args.length then none
      else if e.lib.ret then
        match args.getLast? with
        | some .function =>
            some ⟨e.proxy.ns, e.name, indexed args.dropLast, args.length - 1, id + 1⟩
        | _ => none
      else some ⟨e.proxy.ns, e.name, indexed args, args.length, 0⟩ := by
  have refused : (0 ≤ e.proxy.closure.argc ∧ e.proxy.closure.argc ≠ args.length) ↔
      0 ≤ e.lib.argc ∧ e.lib.argc + (if e.lib.ret then 1 else 0) ≠ args.length := by
    rw [closure_argc]
    cases e.lib.ret with
    | true =>
        simp only [and_true, if_true]
        split
        · omega
        · omega
    | false => simp
  rw [Proxy.request, if_congr refused rfl rfl]
  rfl

/-- The two arguments of the warning. -/
theorem request_warning (e : Entry) (id : ℕ) (a b : Json) :
    e.proxy.closure.request id [.json a, .json b] ≠ none ↔ e.lib.TakesWarning := by
  rw [closure_request, Lib.TakesWarning]
  cases e.lib.ret with
  | true => simp
  | false =>
      have accepted : ¬ (0 ≤ e.lib.argc ∧ e.lib.argc ≠ 2) ↔ e.lib.argc < 0 ∨ e.lib.argc = 2 := by
        omega
      simpa using accepted

/-- Any other number of arguments is refused. -/
theorem takes_of_request {id : ℕ} {args : List Arg} (h : e.proxy.closure.request id args ≠ none) :
    e.lib.takes args := by
  rw [closure_request] at h
  by_cases refused : 0 ≤ e.lib.argc ∧ e.lib.argc + (if e.lib.ret then 1 else 0) ≠ args.length
  · rw [if_pos refused] at h
    exact absurd rfl h
  · rw [if_neg refused] at h
    rw [Lib.takes]
    by_cases nonneg : 0 ≤ e.lib.argc
    · rw [if_pos nonneg]
      by_contra differ
      exact refused ⟨nonneg, Ne.symm differ⟩
    · rw [if_neg nonneg]
      rintro ret rfl
      rw [if_pos ret] at h
      exact h rfl

theorem request_arguments (id : ℕ) {as : List (Option Json)}
    (takes : e.lib.takes (e.lib.arguments as)) :
    ∃ rid, e.proxy.closure.request id (e.lib.arguments as) =
      some ⟨e.proxy.ns, e.name, indexed (as.map (·.elim .undefined .json)), as.length, rid⟩ := by
  have accepted : ¬ (0 ≤ e.lib.argc ∧
      e.lib.argc + (if e.lib.ret then 1 else 0) ≠ (e.lib.arguments as).length) := by
    rintro ⟨nonneg, differ⟩
    rw [Lib.takes, if_pos nonneg] at takes
    exact differ takes.symm
  rw [closure_request, if_neg accepted, Lib.arguments]
  cases e.lib.ret with
  | true => exact ⟨id + 1, by simp⟩
  | false => exact ⟨0, by simp⟩

theorem indexed_from (as : List (Option Json)) (k n : ℕ) :
    (((as.map (·.elim Arg.undefined Arg.json)).zipIdx k).filterMap fun a =>
        match a.1 with
        | .json j => some (a.2, j)
        | _ => none).lookup n = if n < k then none else (as[n - k]?).join := by
  induction as generalizing k with
  | nil => simp
  | cons a as ih =>
      have later : (if n < k + 1 then none else (as[n - (k + 1)]?).join) =
          if n < k + 1 then none else ((a :: as)[n - k]?).join := by
        split
        · rfl
        · have next : n - k = n - (k + 1) + 1 := by omega
          rw [next, List.getElem?_cons_succ]
      rw [List.map_cons, List.zipIdx_cons, List.filterMap_cons]
      cases a with
      | none =>
          dsimp only [Option.elim_none, Option.elim_some]
          rw [ih, later]
          by_cases same : n = k
          · subst same
            simp
          · have : n < k + 1 ↔ n < k := by omega
            simp [this]
      | some j =>
          dsimp only [Option.elim_none, Option.elim_some]
          rw [List.lookup_cons, ih, later]
          by_cases same : n = k
          · subst same
            simp
          · have : n < k + 1 ↔ n < k := by omega
            rw [beq_eq_false_iff_ne.mpr same]
            simp [this]

theorem indexed_lookup (as : List (Option Json)) (i : ℕ) :
    (indexed (as.map (·.elim .undefined .json))).lookup i = (as[i]?).join :=
  indexed_from as 0 i

/-! ### Warnings -/

theorem send_writable (notNumber : E.host ns ≠ some .number) :
    (E.slot ns "send").writable = true := by
  unfold Engine.slot
  cases host : E.host ns with
  | none => rfl
  | some h =>
      cases h with
      | number => exact absurd host notNumber
      | object slots =>
          rw [host_object host]
          exact congrArg Slot.writable (E.noSend ns)

/-- The warning is sent if the object has got a `send` that takes it. -/
theorem warn_thrown {done' : List Entry} (tables : s.Tables E done') (members : s.Members E done)
    (notNumber : E.host ns ≠ some .number) (name : String) :
    (s.warn E (E.target ns) name).thrown = false ↔
      ∃ d ∈ done, d.ns = ns ∧ d.name = "send" ∧ d.lib.TakesWarning := by
  have called : ∀ d : Entry, s.member E (E.target ns) "send" = .function d.proxy.closure →
      ((s.warn E (E.target ns) name).thrown = false ↔ d.lib.TakesWarning) := by
    intro d found
    rw [← request_warning d 0 (.string "warn") (.string ("function replased:" ++ name))]
    unfold Scope.warn
    rw [found]
    dsimp only
    rw [tables.call]
    cases d.proxy.closure.request 0 _ with
    | none => simp [Outcome.throw]
    | some r => simp
  constructor
  · intro quiet
    cases found : s.member E (E.target ns) "send" with
    | slot slot =>
        unfold Scope.warn at quiet
        rw [found] at quiet
        cases quiet
    | function q =>
        obtain ⟨d, hd, target, hname, -, rfl⟩ := (members _ "send" q).mp (member_eq_function found)
        exact ⟨d, hd, target_inj target, hname, (called d found).mp quiet⟩
  · rintro ⟨d, hd, rfl, hname, takes⟩
    have found := (members _ "send" _).mpr ⟨d, hd, rfl, hname, send_writable notNumber, rfl⟩
    refine (called d ?_).mpr takes
    unfold Scope.member
    rw [found]

/-- When a call for a function throws no exception. -/
theorem Inv.create_thrown (inv : Inv E done s) (named : e.ns ≠ "")
    (fresh : ∀ d ∈ done, d.key ≠ e.key) :
    (createFunctionProxy E s e.proxy).1.thrown = false ↔
      (E.host e.ns = some .number → e.name ∉ numberPrototype) ∧
        ((E.slot e.ns e.name).truthy = true →
          ∃ d ∈ done, d.ns = e.ns ∧ d.name = "send" ∧ d.lib.TakesWarning) := by
  by_cases number : E.host e.ns = some .number
  · rw [inv.tables.create_number named number, slot_number number]
    split
    · next taken => simp [Outcome.throw, number, taken]
    · next free => simp [free]
  · have members := inv.members.space e.ns
    rw [inv.tables.create_bind named number, bind_eq (p := e.proxy) (members.member number fresh)]
    dsimp only
    split
    · next truthy =>
        rw [warn_thrown (inv.tables.space e) members number]
        simp [number, truthy]
    · next falsy => simp [number, falsy]

end Context

/-! ### The whole script -/

section Run

variable {done rest : List Entry} {e : Entry}

/-- The next call is for a function of the table, and for none that was treated before. -/
theorem split_next (split : libs.entries = done ++ e :: rest) :
    libs.entries = done ++ [e] ++ rest ∧ e ∈ libs.entries ∧ ∀ d ∈ done, d.key ≠ e.key := by
  refine ⟨by simp [split], by simp [split], fun d hd same => ?_⟩
  have nodup := entries_nodup libs
  rw [split, List.map_append, List.nodup_append] at nodup
  exact nodup.2.2 _ (List.mem_map_of_mem hd) _ (List.mem_map_of_mem List.mem_cons_self) same

/-- The functions before one of the table are the ones that have been treated. -/
theorem warned_iff (split : libs.entries = done ++ e :: rest) :
    libs.Warned e.ns e.name ↔ ∃ d ∈ done, d.ns = e.ns ∧ d.name = "send" ∧ d.lib.TakesWarning := by
  constructor
  · rintro ⟨before, lib, after, send, split', hsend, takes⟩
    obtain ⟨-, here, fresh⟩ := split_next split
    obtain ⟨-, there, -⟩ := split_next split'
    obtain rfl : e.lib = lib :=
      Option.some.inj ((mem_entries.mp here).symm.trans (mem_entries.mp there))
    have notBefore : e ∉ done := fun he => fresh e he rfl
    have notAfter : e ∉ rest := by
      have nodup := (entries_nodup libs).of_map
      rw [split, List.nodup_append, List.nodup_cons] at nodup
      exact nodup.2.1.1
    obtain ⟨rfl, -, -⟩ :=
      (List.append_cons_inj_of_notMem notBefore notAfter).mp (split'.symm.trans split).symm
    exact ⟨_, hsend, rfl, rfl, takes⟩
  · rintro ⟨d, hd, hns, hname, takes⟩
    refine ⟨done, e.lib, rest, d.lib, split, ?_, takes⟩
    rwa [← hns, ← hname]

variable (full : ∀ e ∈ libs.entries, e.ns ≠ "")

/-- The call for a function throws no exception. -/
def Engine.Quiet (E : Engine) (libs : Libs) (e : Entry) : Prop :=
  (E.host e.ns = some .number → e.name ∉ numberPrototype) ∧
    ((E.slot e.ns e.name).truthy = true → libs.Warned e.ns e.name)

include full

/-- The script runs to its end if none of its calls throws, and then it has put every
function that it can put. -/
theorem Inv.run (inv : Inv E done s) (split : libs.entries = done ++ rest) :
    ((runScript E s (rest.map Entry.proxy)).1.thrown = false ↔ ∀ e ∈ rest, E.Quiet libs e) ∧
      ((runScript E s (rest.map Entry.proxy)).1.thrown = false →
        Inv E libs.entries (runScript E s (rest.map Entry.proxy)).2) := by
  induction rest generalizing done s with
  | nil =>
      rw [split, List.append_nil]
      exact ⟨iff_of_true rfl nofun, fun _ => inv⟩
  | cons e rest ih =>
      obtain ⟨split', he, fresh⟩ := split_next split
      have first := inv.create_thrown (full e he) fresh
      rw [← warned_iff split] at first
      obtain ⟨thrown_iff, final⟩ := ih (inv.create (full e he) fresh) split'
      rw [List.forall_mem_cons, List.map_cons, runScript]
      dsimp only
      cases thrown : (createFunctionProxy E s e.proxy).1.thrown with
      | true =>
          have noisy : ¬ E.Quiet libs e := by
            intro quiet
            rw [first.mpr quiet] at thrown
            cases thrown
          rw [if_pos rfl]
          refine ⟨iff_of_false (by simp [thrown]) fun quiet => noisy quiet.1, fun quiet => ?_⟩
          rw [thrown] at quiet
          cases quiet
      | false =>
          rw [if_neg Bool.false_ne_true]
          exact ⟨thrown_iff.trans (and_iff_right (first.mp thrown)).symm, final⟩

/-- A call of a function that was put is a call of its proxy. -/
theorem Inv.sends (inv : Inv E libs.entries s) (he : e ∈ libs.entries)
    (writable : (E.slot e.ns e.name).writable = true) (id : ℕ) (args : List Arg) :
    callFunction E s id e.ns e.name args =
      (e.proxy.closure.request id args).elim .throw fun r => ⟨[r], false⟩ := by
  have notNumber : E.host e.ns ≠ some .number := by
    intro number
    rw [slot_number number] at writable
    cases writable
  have found := (inv.members (E.target e.ns) e.name _).mpr ⟨e, he, rfl, rfl, writable, rfl⟩
  have member : s.member E (E.target e.ns) e.name = .function e.proxy.closure := by
    unfold Scope.member
    rw [found]
  unfold Exports.callFunction
  rw [if_neg (full e he), inv.tables.thread_space ⟨e, he, rfl⟩ notNumber]
  dsimp only
  rw [member]
  exact inv.tables.call _ _ _ _

/-- A call of any other function sends nothing. -/
theorem Inv.silent (inv : Inv E libs.entries s) (he : e ∈ libs.entries)
    (fixed : (E.slot e.ns e.name).writable ≠ true) (id : ℕ) (args : List Arg) :
    (callFunction E s id e.ns e.name args).sent = [] := by
  unfold Exports.callFunction
  rw [if_neg (full e he)]
  by_cases number : E.host e.ns = some .number
  · rw [inv.tables.thread_eq, number]
  · rw [inv.tables.thread_space ⟨e, he, rfl⟩ number]
    dsimp only
    split
    · next q found =>
        obtain ⟨d, -, target, -, writable, -⟩ :=
          (inv.members (E.target e.ns) e.name q).mp (member_eq_function found)
        exact absurd (target_inj target ▸ writable) fixed
    · rfl

end Run

/-! ### Which functions are reached -/

theorem handle_known {e : Entry} (he : e ∈ libs.entries) (args : List (ℕ × Json)) (len rid : ℕ) :
    libs.handle ⟨some e.ns, e.name, args, len, rid⟩ = some (e.ns, e.name, ⟨args, len⟩) := by
  rw [Libs.handle, Option.getD_some, mem_entries.mp he]
  rfl

/-- A table that puts nothing on a prototype. -/
theorem load_calls (ordinary : libs.Ordinary) : load E libs.calls =
    ⟨(runScript E .start libs.calls).1.thrown,
      callFunction E (runScript E .start libs.calls).2⟩ := by
  have none : libs.calls.any Proxy.inherited = false := by
    rw [List.any_eq_false]
    intro p hp
    obtain ⟨e, he, rfl⟩ := List.mem_map.mp hp
    obtain ⟨ns, name⟩ := ordinary e.ns e.name e.lib (mem_entries.mp he)
    have notNs : e.proxy.ns ≠ some "__proto__" := by
      rw [Entry.proxy]
      split
      · simp
      · simp [ns]
    have notName : e.proxy.name ≠ "__proto__" := name
    simp [Proxy.inherited, notNs, notName]
  rw [load, none, if_neg Bool.false_ne_true]

theorem Inv.reaches (ordinary : libs.Ordinary) (full : ∀ e ∈ libs.entries, e.ns ≠ "")
    (inv : Inv E libs.entries (runScript E .start libs.calls).2) {e : Entry}
    (he : e ∈ libs.entries) (writable : (E.slot e.ns e.name).writable = true) :
    Reaches libs (load E libs.calls) e.ns e.name e.lib := by
  rw [load_calls ordinary]
  constructor
  · intro id as takes
    obtain ⟨rid, request⟩ := request_arguments id takes
    dsimp only
    rw [inv.sends full he writable, request, proxy_ns (full e he)]
    refine ⟨rfl, _, List.filterMap_cons_some (handle_known he _ _ _), rfl, fun i => ?_⟩
    exact indexed_lookup as i
  · intro id args refused
    dsimp only
    rw [inv.sends full he writable]
    cases request : e.proxy.closure.request id args with
    | none => rfl
    | some r =>
        have some : e.proxy.closure.request id args ≠ none := by simp [request]
        exact absurd (takes_of_request some) refused

/-- What has happened where every function is reached. -/
theorem Exported.puts (exported : Exported E libs) (ordinary : libs.Ordinary) {e : Entry}
    (he : e ∈ libs.entries) : E.Puts libs e.ns e.name := by
  have quotable : ∀ e ∈ libs.entries, Quotable e.ns := fun e he => exported.quotable he
  have full : ∀ e ∈ libs.entries, e.ns ≠ "" := fun e he => (quotable e he).named
  obtain ⟨calls, script, quiet, reached⟩ := exported
  rw [libScript_exports (fun e he => (quotable e he).plain) fun e he => (quotable e he).noNul]
    at script
  obtain rfl := Option.some.inj script
  rw [load_calls ordinary] at quiet reached
  obtain ⟨thrown_iff, final⟩ := Inv.start.run full (List.nil_append libs.entries).symm
  refine ⟨?_, (thrown_iff.mp quiet e he).2⟩
  by_contra fixed
  obtain ⟨-, args, sent, -⟩ :=
    (reached _ _ _ (mem_entries.mp he)).accepted 0 _ (takes_undefined e.lib)
  rw [Libs.calls] at sent
  dsimp only at sent
  rw [(final quiet).silent full he fixed] at sent
  cases sent

/-- **Every library function is reached** if each has a namespace that is written as it is, and is
put on the object of this namespace: the name can be assigned there, and it is not taken,
unless the namespace has got a `send` before that can be called with a warning. No
function may be put on a prototype. These conditions are met wherever every function is
reached; what a function on a prototype changes for the others is left open. -/
theorem exported_iff_puts (E : Engine) (libs : Libs) :
    (libs.Ordinary ∧ (∀ ns fname lib, libs.get ns fname = some lib →
        Quotable ns ∧ E.Puts libs ns fname) → Exported E libs) ∧
      (Exported E libs → ∀ ns fname lib, libs.get ns fname = some lib →
        Quotable ns ∧ (libs.Ordinary → E.Puts libs ns fname)) := by
  constructor
  · rintro ⟨ordinary, h⟩
    have all : ∀ e ∈ libs.entries, Quotable e.ns ∧ E.Puts libs e.ns e.name :=
      fun e he => h e.ns e.name e.lib (mem_entries.mp he)
    have full : ∀ e ∈ libs.entries, e.ns ≠ "" := fun e he => (all e he).1.named
    have quiet : ∀ e ∈ libs.entries, E.Quiet libs e := by
      intro e he
      obtain ⟨-, writable, warned⟩ := all e he
      refine ⟨fun number => ?_, warned⟩
      rw [slot_number number] at writable
      cases writable
    obtain ⟨thrown_iff, final⟩ := Inv.start.run full (List.nil_append libs.entries).symm
    have ended := thrown_iff.mpr quiet
    have script := libScript_exports (fun e he => (all e he).1.plain)
      fun e he => (all e he).1.noNul
    refine ⟨libs.calls, script, ?_, fun ns fname lib known => ?_⟩
    · rw [load_calls ordinary]
      exact ended
    · have he : ⟨ns, fname, lib⟩ ∈ libs.entries := mem_entries.mpr known
      exact (final ended).reaches ordinary full he (all _ he).2.writable
  · intro exported ns fname lib known
    have he : ⟨ns, fname, lib⟩ ∈ libs.entries := mem_entries.mpr known
    exact ⟨exported.quotable he, fun ordinary => exported.puts ordinary he⟩

/-- The properties of functions, and those of `Object.prototype`. -/
def ordinarySlot (name : String) : Slot :=
  if name ∈ ["arguments", "caller"] then ⟨false, false⟩
  else if name ∈ ["length", "name"] then ⟨true, false⟩
  else if name ∈ "prototype" :: "apply" :: "bind" :: "call" :: objectPrototype then ⟨true, true⟩
  else .free

def ordinaryEngine : Engine where
  threadId := 1
  slots := fun _ => ordinarySlot
  functionSlots := ordinarySlot
  noSend := fun _ => by decide
  noFunctionSend := by decide
  stack := 10000
  inherited := fun _ => ⟨true, fun _ _ _ _ => .throw⟩
  inheritedNs := by simp [Outcome.throw]

/-- `{ '' : { f : … } }` -/
def unnamedTable : Libs where
  table := [("", [("f", ⟨0, false, false⟩)])]
  namespaces := by simp
  names := by simp
  identifiers := by decide

/-- `{ math : { toString : … } }` -/
def inheritedTable : Libs where
  table := [("math", [("toString", ⟨0, false, false⟩)])]
  namespaces := by simp
  names := by simp
  identifiers := by decide

/-- `{ 'a"b' : { f : … } }` -/
def quotedTable : Libs where
  table := [("a\"b", [("f", ⟨0, false, false⟩)])]
  namespaces := by simp
  names := by simp
  identifiers := by decide

theorem unnamed_inherited_quoted_not_exported :
    ¬ Exported ordinaryEngine unnamedTable ∧ ¬ Exported ordinaryEngine inheritedTable ∧
      ¬ Exported ordinaryEngine quotedTable := by
  have unnamed : unnamedTable.get "" "f" = some ⟨0, false, false⟩ := rfl
  have inherited : inheritedTable.get "math" "toString" = some ⟨0, false, false⟩ := rfl
  have quoted : quotedTable.get "a\"b" "f" = some ⟨0, false, false⟩ := rfl
  refine ⟨?_, ?_, ?_⟩
  · intro exported
    exact (exported.quotable (e := ⟨"", "f", _⟩) (mem_entries.mpr unnamed)).named rfl
  · intro exported
    have ordinary : inheritedTable.Ordinary := by
      intro ns fname lib known
      have he : (⟨ns, fname, lib⟩ : Entry) ∈ inheritedTable.entries := mem_entries.mpr known
      obtain ⟨rfl, rfl, rfl⟩ := Entry.mk.inj (List.mem_singleton.mp he)
      decide
    have puts := exported.puts ordinary (e := ⟨"math", "toString", _⟩) (mem_entries.mpr inherited)
    -- The only function of the table has none before it.
    obtain ⟨before, lib, after, send, split, hsend, -⟩ := puts.warned rfl
    have length : 1 = before.length + (after.length + 1) := by
      rw [← List.length_cons, ← List.length_append, ← split]
      rfl
    obtain rfl : before = [] := List.length_eq_zero_iff.mp (by omega)
    cases hsend
  · intro exported
    have quotable := exported.quotable (e := ⟨"a\"b", "f", _⟩) (mem_entries.mpr quoted)
    exact absurd quotable.plain (by decide)

end ThreadJs.Exports
