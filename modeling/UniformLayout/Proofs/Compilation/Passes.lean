import UniformLayout.Compilation.Batch
import UniformLayout.Proofs.Compilation.Reuse

/-!
# The passes of a batch

Units that are compiled together are compiled in passes: first all of them, and then, as long as a pass
completes one, those that an unknown type made fail. `Batch.passes` lists the calls of each pass, with
the state in which each of them starts. A unit that waits in the end waits for a type that no unit of the
batch generates.

* `Pass`, `Settles`: what a pass and what the passes behind the first one do, as relations.
* `Pass.waits`, `Pass.rests`: what a pass does for one unit.
* `Settles.length_le`: each pass but the last completes a unit.
* `Pass.fixed`: a pass that completes nothing changes nothing.

Main statement: `compileAll_settles`.
-/

namespace UniformLayout

variable {τ : Type}

/-- One call for a unit of a batch: the position of the unit, and where the batch stands. -/
structure Attempt (τ : Type) where
  position : Nat
  unit : SourceUnit
  before : Batch τ

namespace Attempt

def entry (settings : Settings) (sink : ArtifactSink τ) (attempt : Attempt τ) : BatchEntry :=
  (Batch.compileUnit settings sink attempt.unit attempt.before).1

def after (settings : Settings) (sink : ArtifactSink τ) (attempt : Attempt τ) : Batch τ :=
  (Batch.compileUnit settings sink attempt.unit attempt.before).2

end Attempt

namespace Batch

/-- The calls of a pass over the entries, of which the first one stands at `position`. -/
def attempts (settings : Settings) (sink : ArtifactSink τ) :
    (position : Nat) → List BatchEntry → Batch τ → List (Attempt τ)
  | _, [], _ => []
  | position, entry :: rest, batch =>
    if entry.isWaiting then
      ⟨position, entry.unit, batch⟩ ::
        attempts settings sink (position + 1) rest (compileUnit settings sink entry.unit batch).2
    else attempts settings sink (position + 1) rest batch

/-- The passes of `settle`. -/
def passesFrom (settings : Settings) (sink : ArtifactSink τ) (entries : List BatchEntry)
    (batch : Batch τ) : List (List (Attempt τ)) :=
  if waiting entries = 0 then []
  else
    attempts settings sink 0 entries batch ::
      if completed entries < completed (retry settings sink entries batch).1 then
        passesFrom settings sink (retry settings sink entries batch).1
          (retry settings sink entries batch).2
      else []
  termination_by waiting entries
  decreasing_by
    have := retry_balance settings sink entries batch
    omega

/-- A unit that has not been compiled yet waits for its first call. -/
def asked (unit : SourceUnit) : BatchEntry := ⟨unit, .error (.unknownType unit.key "" "")⟩

/-- The passes of `compileAll`: one for all units, and those of `settle`. -/
def passes (settings : Settings) (sink : ArtifactSink τ) (units : List SourceUnit)
    (registry : Registry) (artifacts : τ) : List (List (Attempt τ)) :=
  attempts settings sink 0 (units.map asked) { registry, artifacts } ::
    passesFrom settings sink (compileEach settings sink units { registry, artifacts }).1
      (compileEach settings sink units { registry, artifacts }).2

/-- The calls lead from one state to the other, each going on where the one before has ended. -/
def Chained (settings : Settings) (sink : ArtifactSink τ) :
    Batch τ → List (Attempt τ) → Batch τ → Prop
  | before, [], after => after = before
  | before, attempt :: rest, after =>
    attempt.before = before ∧ Chained settings sink (attempt.after settings sink) rest after

/-- The calls for the unit at a position, in order. -/
def callsAt (position : Nat) (calls : List (Attempt τ)) : List (Attempt τ) :=
  calls.filter (·.position == position)

/-- The entry is the outcome of the calls for its unit: that of the last one, and each call before it has
left the unit waiting. -/
structure Answers (settings : Settings) (sink : ArtifactSink τ) (calls : List (Attempt τ))
    (entry : BatchEntry) : Prop where
  unit : ∀ attempt ∈ calls, attempt.unit = entry.unit
  last : calls.getLast?.map (Attempt.entry settings sink) = some entry
  waited : ∀ attempt ∈ calls.dropLast, (attempt.entry settings sink).isWaiting

variable {settings : Settings} {sink : ArtifactSink τ}

theorem Chained.append {first middle last : Batch τ} {calls more : List (Attempt τ)}
    (h : Chained settings sink first calls middle) (k : Chained settings sink middle more last) :
    Chained settings sink first (calls ++ more) last := by
  induction calls generalizing first with
  | nil =>
    obtain rfl : middle = first := h
    exact k
  | cons attempt rest ih => exact ⟨h.1, ih h.2⟩

theorem callsAt_append (position : Nat) (calls more : List (Attempt τ)) :
    callsAt position (calls ++ more) = callsAt position calls ++ callsAt position more :=
  List.filter_append ..

theorem callsAt_cons_self (attempt : Attempt τ) (calls : List (Attempt τ)) :
    callsAt attempt.position (attempt :: calls) =
      attempt :: callsAt attempt.position calls := by
  unfold callsAt
  rw [List.filter_cons, if_pos (beq_self_eq_true _)]

theorem callsAt_cons_of_ne {position : Nat} {attempt : Attempt τ} (h : attempt.position ≠ position)
    (calls : List (Attempt τ)) : callsAt position (attempt :: calls) = callsAt position calls := by
  unfold callsAt
  rw [List.filter_cons, if_neg (by rwa [beq_iff_eq])]

/-- One more call for a unit that waits. -/
theorem Answers.concat {calls : List (Attempt τ)} {entry : BatchEntry}
    (h : Answers settings sink calls entry) (hw : entry.isWaiting) {attempt : Attempt τ}
    (hu : attempt.unit = entry.unit) :
    Answers settings sink (calls ++ [attempt]) (attempt.entry settings sink) := by
  refine ⟨?_, ?_, ?_⟩
  · exact List.forall_mem_append.2 ⟨fun other hm => (h.unit other hm).trans hu.symm,
      List.forall_mem_singleton.2 rfl⟩
  · rw [List.getLast?_concat]
    rfl
  · rw [List.dropLast_concat]
    intro other hm
    obtain ⟨last, hlast, hentry⟩ := Option.map_eq_some_iff.1 h.last
    rw [← List.dropLast_append_getLast? last hlast] at hm
    rcases List.mem_append.1 hm with hm | hm
    · exact h.waited other hm
    · rw [List.mem_singleton.1 hm, hentry]
      exact hw

/-! ## One pass -/

/-- A pass over entries: those that wait are compiled again, one after the other. -/
inductive Pass (settings : Settings) (sink : ArtifactSink τ) : (position : Nat) →
    List BatchEntry → Batch τ → List (Attempt τ) → List BatchEntry → Batch τ → Prop
  | done (position : Nat) (batch : Batch τ) : Pass settings sink position [] batch [] [] batch
  | kept {position : Nat} {entry : BatchEntry} {rest after : List BatchEntry}
      {batch changed : Batch τ} {calls : List (Attempt τ)} (rests : entry.isWaiting = false)
      (h : Pass settings sink (position + 1) rest batch calls after changed) :
      Pass settings sink position (entry :: rest) batch calls (entry :: after) changed
  | tried {position : Nat} {entry : BatchEntry} {rest after : List BatchEntry}
      {batch changed : Batch τ} {calls : List (Attempt τ)} (waits : entry.isWaiting)
      (h : Pass settings sink (position + 1) rest (compileUnit settings sink entry.unit batch).2
        calls after changed) :
      Pass settings sink position (entry :: rest) batch (⟨position, entry.unit, batch⟩ :: calls)
        ((compileUnit settings sink entry.unit batch).1 :: after) changed

theorem pass_retry (position : Nat) (entries : List BatchEntry) (batch : Batch τ) :
    Pass settings sink position entries batch (attempts settings sink position entries batch)
      (retry settings sink entries batch).1 (retry settings sink entries batch).2 := by
  induction entries generalizing position batch with
  | nil => exact .done position batch
  | cons entry rest ih =>
    unfold attempts retry
    by_cases hw : entry.isWaiting
    · rw [if_pos hw, if_pos hw]
      exact .tried hw (ih _ _)
    · rw [if_neg hw, if_neg hw]
      exact .kept (by simpa using hw) (ih _ _)

theorem compileEach_eq (units : List SourceUnit) (batch : Batch τ) :
    compileEach settings sink units batch = retry settings sink (units.map asked) batch := by
  induction units generalizing batch with
  | nil => rfl
  | cons unit rest ih =>
    rw [compileEach, List.map_cons, retry, if_pos (show (asked unit).isWaiting = true from rfl)]
    dsimp only [asked]
    rw [ih]

section

variable {position : Nat} {entries after : List BatchEntry} {batch changed : Batch τ}
  {calls : List (Attempt τ)}

theorem Pass.units (h : Pass settings sink position entries batch calls after changed) :
    after.map BatchEntry.unit = entries.map BatchEntry.unit := by
  induction h with
  | done => rfl
  | kept _ _ ih => rw [List.map_cons, List.map_cons, ih]
  | tried _ _ ih =>
    rw [List.map_cons, List.map_cons, ih]
    rfl

theorem Pass.chained (h : Pass settings sink position entries batch calls after changed) :
    Chained settings sink batch calls changed := by
  induction h with
  | done => rfl
  | kept _ _ ih => exact ih
  | tried _ _ ih => exact ⟨rfl, ih⟩

/-- A pass asks for units in order, each at most once. -/
theorem Pass.ordered (h : Pass settings sink position entries batch calls after changed) :
    calls.Pairwise (·.position < ·.position) ∧ ∀ attempt ∈ calls, ∃ i,
      attempt.position = position + i ∧
        (entries.map BatchEntry.unit)[i]? = some attempt.unit := by
  induction h with
  | done => simp
  | kept _ _ ih =>
    refine ⟨ih.1, fun attempt hm => ?_⟩
    obtain ⟨i, hi, hunit⟩ := ih.2 attempt hm
    exact ⟨i + 1, by omega, hunit⟩
  | tried _ _ ih =>
    refine ⟨List.pairwise_cons.2 ⟨fun attempt hm => ?_, ih.1⟩, List.forall_mem_cons.2 ⟨?_, ?_⟩⟩
    · obtain ⟨i, hi, -⟩ := ih.2 attempt hm
      dsimp only
      omega
    · exact ⟨0, rfl, rfl⟩
    · intro attempt hm
      obtain ⟨i, hi, hunit⟩ := ih.2 attempt hm
      exact ⟨i + 1, by omega, hunit⟩

/-- Nothing in front of a pass is asked for. -/
theorem Pass.callsAt_of_lt (h : Pass settings sink position entries batch calls after changed)
    {i : Nat} (hi : i < position) : callsAt i calls = [] := by
  refine List.filter_eq_nil_iff.2 fun attempt hm => ?_
  obtain ⟨j, hj, -⟩ := h.ordered.2 attempt hm
  rw [beq_iff_eq]
  omega

/-- A unit that waits is compiled once. -/
theorem Pass.waits (h : Pass settings sink position entries batch calls after changed) {i : Nat}
    {entry : BatchEntry} (he : entries[i]? = some entry) (hw : entry.isWaiting) :
    ∃ attempt, callsAt (position + i) calls = [attempt] ∧ attempt.unit = entry.unit ∧
      after[i]? = some (attempt.entry settings sink) := by
  induction h generalizing i with
  | done => cases he
  | kept rests _ ih =>
    cases i with
    | zero =>
      obtain rfl := Option.some.inj he
      rw [rests] at hw
      cases hw
    | succ i =>
      obtain ⟨attempt, hcalls, hattempt⟩ := ih he
      refine ⟨attempt, ?_, hattempt⟩
      rwa [Nat.add_right_comm, Nat.add_assoc] at hcalls
  | @tried position first rest after batch changed calls waits h ih =>
    cases i with
    | zero =>
      obtain rfl := Option.some.inj he
      refine ⟨⟨position, first.unit, batch⟩, ?_, rfl, rfl⟩
      refine (callsAt_cons_self _ _).trans (congrArg _ ?_)
      exact h.callsAt_of_lt (Nat.lt_succ_self position)
    | succ i =>
      obtain ⟨attempt, hcalls, hattempt⟩ := ih he
      refine ⟨attempt, ?_, hattempt⟩
      rw [Nat.add_right_comm, Nat.add_assoc] at hcalls
      rwa [callsAt_cons_of_ne (by dsimp only; omega)]

/-- A unit that does not wait is left alone. -/
theorem Pass.rests (h : Pass settings sink position entries batch calls after changed) {i : Nat}
    {entry : BatchEntry} (he : entries[i]? = some entry) (hw : entry.isWaiting = false) :
    callsAt (position + i) calls = [] ∧ after[i]? = some entry := by
  induction h generalizing i with
  | done => cases he
  | @kept position first rest after batch changed calls rests h ih =>
    cases i with
    | zero => exact ⟨h.callsAt_of_lt (Nat.lt_succ_self position), he⟩
    | succ i =>
      obtain ⟨hcalls, hafter⟩ := ih he
      rw [Nat.add_right_comm, Nat.add_assoc] at hcalls
      exact ⟨hcalls, hafter⟩
  | @tried position first rest after batch changed calls waits h ih =>
    cases i with
    | zero =>
      obtain rfl := Option.some.inj he
      rw [waits] at hw
      cases hw
    | succ i =>
      obtain ⟨hcalls, hafter⟩ := ih he
      rw [Nat.add_right_comm, Nat.add_assoc] at hcalls
      exact ⟨(callsAt_cons_of_ne (by dsimp only; omega) _).trans hcalls, hafter⟩

/-- A pass completes units by its calls only. -/
theorem Pass.completed (h : Pass settings sink position entries batch calls after changed) :
    completed after = completed entries +
      calls.countP fun attempt => (attempt.entry settings sink).isDone := by
  induction h with
  | done => rfl
  | kept _ _ ih =>
    unfold Batch.completed at ih ⊢
    rw [List.countP_cons, List.countP_cons, ih]
    omega
  | tried waits _ ih =>
    unfold Batch.completed at ih ⊢
    rw [List.countP_cons, List.countP_cons, List.countP_cons, ih,
      BatchEntry.isDone_of_isWaiting waits]
    unfold Attempt.entry
    simp only [Bool.false_eq_true, if_false]
    omega

/-- The entries are the outcomes of the calls so far. -/
def Recorded (settings : Settings) (sink : ArtifactSink τ) (calls : List (Attempt τ))
    (entries : List BatchEntry) : Prop :=
  ∀ i entry, entries[i]? = some entry → Answers settings sink (callsAt i calls) entry

/-- The first pass asks for every unit. -/
theorem Pass.recorded (h : Pass settings sink 0 entries batch calls after changed)
    (all : ∀ entry ∈ entries, entry.isWaiting) : Recorded settings sink calls after := by
  intro i entry he
  have hlength : after.length = entries.length := by
    simpa using congrArg List.length h.units
  have hlt : i < entries.length := hlength ▸ (List.getElem?_eq_some_iff.1 he).1
  obtain ⟨attempt, hcalls, -, hafter⟩ := h.waits (List.getElem?_eq_getElem hlt)
    (all _ (List.getElem_mem hlt))
  rw [Nat.zero_add] at hcalls
  obtain rfl := Option.some.inj (hafter.symm.trans he)
  rw [hcalls]
  exact ⟨List.forall_mem_singleton.2 rfl, rfl, fun _ hm => by cases hm⟩

/-- A later pass asks for those that wait. -/
theorem Recorded.pass {earlier : List (Attempt τ)} (hr : Recorded settings sink earlier entries)
    (h : Pass settings sink 0 entries batch calls after changed) :
    Recorded settings sink (earlier ++ calls) after := by
  intro i entry he
  have hlength : after.length = entries.length := by
    simpa using congrArg List.length h.units
  have hlt : i < entries.length := hlength ▸ (List.getElem?_eq_some_iff.1 he).1
  have hbefore := List.getElem?_eq_getElem hlt
  rw [callsAt_append]
  cases hw : entries[i].isWaiting with
  | true =>
    obtain ⟨attempt, hcalls, hunit, hafter⟩ := h.waits hbefore hw
    rw [Nat.zero_add] at hcalls
    obtain rfl := Option.some.inj (hafter.symm.trans he)
    rw [hcalls]
    exact (hr i _ hbefore).concat hw hunit
  | false =>
    obtain ⟨hcalls, hafter⟩ := h.rests hbefore hw
    rw [Nat.zero_add] at hcalls
    obtain rfl := Option.some.inj (hafter.symm.trans he)
    rw [hcalls, List.append_nil]
    exact hr i _ hbefore

end

/-! ## All passes -/

/-- Passes over entries, as long as some unit waits and the pass before has completed one. -/
inductive Settles (settings : Settings) (sink : ArtifactSink τ) : List BatchEntry → Batch τ →
    List (List (Attempt τ)) → List BatchEntry → Batch τ → Prop
  | idle {entries : List BatchEntry} (batch : Batch τ) (rests : waiting entries = 0) :
      Settles settings sink entries batch [] entries batch
  | stuck {entries after : List BatchEntry} {batch changed : Batch τ} {calls : List (Attempt τ)}
      (waits : 0 < waiting entries)
      (pass : Pass settings sink 0 entries batch calls after changed)
      (fruitless : completed after ≤ completed entries) :
      Settles settings sink entries batch [calls] after changed
  | again {entries after last : List BatchEntry} {batch changed final : Batch τ}
      {calls : List (Attempt τ)} {passes : List (List (Attempt τ))} (waits : 0 < waiting entries)
      (pass : Pass settings sink 0 entries batch calls after changed)
      (progress : completed entries < completed after)
      (fewer : waiting after < waiting entries)
      (rest : Settles settings sink after changed passes last final) :
      Settles settings sink entries batch (calls :: passes) last final

theorem settle_eq (entries : List BatchEntry) (batch : Batch τ) :
    settle settings sink entries batch =
      if waiting entries = 0 then (entries, batch)
      else if completed entries < completed (retry settings sink entries batch).1 then
        settle settings sink (retry settings sink entries batch).1
          (retry settings sink entries batch).2
      else retry settings sink entries batch := by
  rw [settle]
  split
  · rfl
  · split
    rename_i after changed hretry
    dsimp only
    rw [hretry]
    split
    · rfl
    · rfl

theorem settles_settle (entries : List BatchEntry) (batch : Batch τ) :
    Settles settings sink entries batch (passesFrom settings sink entries batch)
      (settle settings sink entries batch).1 (settle settings sink entries batch).2 := by
  induction hn : waiting entries using Nat.strongRecOn generalizing entries batch with
  | _ n ih =>
    subst hn
    have hpass : Pass settings sink 0 entries batch (attempts settings sink 0 entries batch)
        (retry settings sink entries batch).1 (retry settings sink entries batch).2 :=
      pass_retry 0 entries batch
    have hbalance := retry_balance settings sink entries batch
    rw [passesFrom, settle_eq]
    split
    · rename_i hnone
      exact .idle batch hnone
    · rename_i hsome
      split
      · rename_i hprogress
        have hfewer : waiting (retry settings sink entries batch).1 < waiting entries := by omega
        exact .again (by omega) hpass hprogress hfewer (ih _ hfewer _ _ rfl)
      · rename_i hnot
        exact .stuck (by omega) hpass (by omega)

section

variable {entries last : List BatchEntry} {batch final : Batch τ}
  {passes : List (List (Attempt τ))}

/-- Every pass but the last completes a unit, and one that waits is left for the last. -/
theorem Settles.length_le (h : Settles settings sink entries batch passes last final) :
    passes.length ≤ waiting entries := by
  induction h with
  | idle => exact Nat.zero_le _
  | stuck waits => exact waits
  | again _ _ _ fewer _ ih =>
    rw [List.length_cons]
    omega

theorem Settles.units (h : Settles settings sink entries batch passes last final) :
    last.map BatchEntry.unit = entries.map BatchEntry.unit := by
  induction h with
  | idle => rfl
  | stuck _ pass => exact pass.units
  | again _ pass _ _ _ ih => exact ih.trans pass.units

theorem Settles.chained (h : Settles settings sink entries batch passes last final) :
    Chained settings sink batch passes.flatten final := by
  induction h with
  | idle => rfl
  | stuck _ pass =>
    rw [List.flatten_cons, List.flatten_nil, List.append_nil]
    exact pass.chained
  | again _ pass _ _ _ ih => exact pass.chained.append ih

theorem Settles.ordered (h : Settles settings sink entries batch passes last final) :
    ∀ pass ∈ passes, pass.Pairwise (·.position < ·.position) ∧
      ∀ attempt ∈ pass, (entries.map BatchEntry.unit)[attempt.position]? = some attempt.unit := by
  have hpass : ∀ {entries after : List BatchEntry} {batch changed : Batch τ}
      {calls : List (Attempt τ)}, Pass settings sink 0 entries batch calls after changed →
      calls.Pairwise (·.position < ·.position) ∧ ∀ attempt ∈ calls,
        (entries.map BatchEntry.unit)[attempt.position]? = some attempt.unit := by
    intro entries after batch changed calls h
    refine ⟨h.ordered.1, fun attempt hm => ?_⟩
    obtain ⟨i, hi, hunit⟩ := h.ordered.2 attempt hm
    rwa [hi, Nat.zero_add]
  induction h with
  | idle => exact fun _ hm => by cases hm
  | stuck _ pass => exact List.forall_mem_singleton.2 (hpass pass)
  | again _ pass _ _ _ ih =>
    rw [pass.units] at ih
    exact List.forall_mem_cons.2 ⟨hpass pass, ih⟩

theorem Settles.recorded (h : Settles settings sink entries batch passes last final)
    {earlier : List (Attempt τ)} (hr : Recorded settings sink earlier entries) :
    Recorded settings sink (earlier ++ passes.flatten) last := by
  induction h generalizing earlier with
  | idle =>
    rw [List.flatten_nil, List.append_nil]
    exact hr
  | stuck _ pass =>
    rw [List.flatten_cons, List.flatten_nil, List.append_nil]
    exact hr.pass pass
  | again _ pass _ _ _ ih =>
    rw [List.flatten_cons, ← List.append_assoc]
    exact ih (hr.pass pass)

end

/-! ## A pass that completes nothing -/

theorem isWaiting_iff {entry : BatchEntry} : entry.isWaiting = true ↔
    ∃ file declaration typeName,
      entry.result = .error (.unknownType file declaration typeName) := by
  obtain ⟨unit, e | compiled⟩ := entry
  · cases e <;> simp [BatchEntry.isWaiting]
  · simp [BatchEntry.isWaiting]

/-- A call that fails, with a sink that does not, leaves the registry alone. Where a type is unknown, the
unit has no plan. -/
theorem compileUnit_of_error {unit : SourceUnit} {batch : Batch τ}
    (reached : Reached settings batch.registry) (infallible : sink.Infallible)
    (ids : unit.FindsIds batch.registry) {e : CompileError}
    (h : (compileUnit settings sink unit batch).1.result = .error e) :
    (compileUnit settings sink unit batch).2.registry = batch.registry ∧
      ∀ file declaration typeName, e = .unknownType file declaration typeName →
        (unit.plan batch.registry).result = .error e := by
  let work : Workspace BindingPool τ :=
    ⟨batch.registry, { max := settings.bindings.maxBindingPoints }, batch.artifacts⟩
  have he : (compile settings BindingPool.allocator sink unit work).1.result = .error e := h
  obtain ⟨hresult, hregistry, -, -⟩ :=
    compile_noting settings BindingPool.allocator sink unit work
  constructor
  · have hsame := (@compile_spec _ _ settings BindingPool.allocator sink unit work reached.settled
      ids).2 e (by rw [hresult, he])
    rcases hsame with ⟨hsame, -⟩ | ⟨⟨cause, hrefuses, -⟩, -⟩
    · exact hregistry.symm.trans hsame
    · exact absurd hrefuses (infallible cause)
  · rintro file declaration typeName rfl
    rcases compile_eq_error he with hp | ⟨plan, hp, ha | ⟨given, ha⟩⟩
    · exact hp
    · obtain ⟨cause, hc⟩ := assignSlots_eq_error ha
      cases hc
    · have hs : work.registry.Settled settings.bindings.maxTextureUnits := reached.settled
      obtain ⟨cause, -, hc⟩ := sink_of_emission_error hs ids hp ha he
      cases hc

/-- The calls lead to a registry of the compiler. -/
theorem Chained.reached {before after : Batch τ} {calls : List (Attempt τ)}
    (h : Chained settings sink before calls after) (reached : Reached settings before.registry)
    (ids : ∀ attempt ∈ calls, attempt.unit.FindsIds attempt.before.registry) :
    Reached settings after.registry := by
  induction calls generalizing before with
  | nil =>
    obtain rfl : after = before := h
    exact reached
  | cons attempt rest ih =>
    obtain ⟨rfl, hrest⟩ := h
    obtain ⟨hfirst, hids⟩ := List.forall_mem_cons.1 ids
    exact ih hrest (.compile BindingPool.allocator sink attempt.unit
      ⟨attempt.before.registry, _, attempt.before.artifacts⟩ reached hfirst) hids

/-- A pass that completes nothing changes nothing, so what waits behind it has been tried on the registry
behind it. -/
theorem Pass.fixed {position : Nat} {entries after : List BatchEntry} {batch changed : Batch τ}
    {calls : List (Attempt τ)} (h : Pass settings sink position entries batch calls after changed)
    (reached : Reached settings batch.registry) (infallible : sink.Infallible)
    (ids : ∀ attempt ∈ calls, attempt.unit.FindsIds attempt.before.registry)
    (fruitless : ∀ attempt ∈ calls, (attempt.entry settings sink).isDone = false) :
    changed.registry = batch.registry ∧ ∀ entry ∈ after, entry.isWaiting →
      ∀ e, entry.result = .error e → (entry.unit.plan batch.registry).result = .error e := by
  induction h with
  | done => exact ⟨rfl, fun _ hm => by cases hm⟩
  | kept rests _ ih =>
    obtain ⟨hregistry, hplans⟩ := ih reached ids fruitless
    refine ⟨hregistry, List.forall_mem_cons.2 ⟨fun hw => ?_, hplans⟩⟩
    rw [rests] at hw
    cases hw
  | @tried position first rest after batch changed calls waits h ih =>
    obtain ⟨hid, hids⟩ := List.forall_mem_cons.1 ids
    obtain ⟨hnot, hrest⟩ := List.forall_mem_cons.1 fruitless
    cases hr : (compileUnit settings sink first.unit batch).1.result with
    | ok compiled =>
      unfold Attempt.entry BatchEntry.isDone at hnot
      rw [hr] at hnot
      cases hnot
    | error e =>
      obtain ⟨hsame, hplan⟩ := compileUnit_of_error reached infallible hid hr
      obtain ⟨hregistry, hplans⟩ := ih (hsame ▸ reached) hids hrest
      rw [hsame] at hregistry hplans
      refine ⟨hregistry, List.forall_mem_cons.2 ⟨fun hw other ho => ?_, hplans⟩⟩
      obtain rfl : e = other := Except.error.inj (hr.symm.trans ho)
      obtain ⟨file, declaration, typeName, hunknown⟩ := isWaiting_iff.1 hw
      exact hplan file declaration typeName (Except.error.inj (hr.symm.trans hunknown))

/-- What waits in the end has no plan on the registry in the end. -/
theorem Settles.fixed {entries last : List BatchEntry} {batch final : Batch τ}
    {passes : List (List (Attempt τ))}
    (h : Settles settings sink entries batch passes last final)
    (reached : Reached settings batch.registry) (infallible : sink.Infallible)
    (ids : ∀ attempt ∈ passes.flatten, attempt.unit.FindsIds attempt.before.registry) :
    ∀ entry ∈ last, entry.isWaiting →
      ∀ e, entry.result = .error e → (entry.unit.plan final.registry).result = .error e := by
  induction h with
  | idle batch rests =>
    intro entry hm hw
    exact absurd hw (List.countP_eq_zero.1 rests entry hm)
  | @stuck entries after batch changed calls _ pass fruitless =>
    rw [List.flatten_cons, List.flatten_nil, List.append_nil] at ids
    have hnone : ∀ attempt ∈ calls, ¬ (attempt.entry settings sink).isDone = true :=
      List.countP_eq_zero.1 (by have := pass.completed; omega)
    obtain ⟨hregistry, hplans⟩ := pass.fixed reached infallible ids
      fun attempt hm => by simpa using hnone attempt hm
    rw [hregistry]
    exact hplans
  | again _ pass _ _ _ ih =>
    obtain ⟨hfirst, hrest⟩ := List.forall_mem_append.1 ids
    exact ih (pass.chained.reached reached hfirst) hrest

/-- What compiling units together comes to, by its passes. -/
structure Outcome (settings : Settings) (sink : ArtifactSink τ) (units : List SourceUnit)
    (start : Batch τ) (passes : List (List (Attempt τ))) (entries : List BatchEntry)
    (batch : Batch τ) : Prop where
  /-- There is at most one pass more than there are units. -/
  length_le : passes.length ≤ units.length + 1
  /-- A pass asks for units in order, each at most once. -/
  ordered : ∀ pass ∈ passes, pass.Pairwise (·.position < ·.position) ∧
    ∀ attempt ∈ pass, units[attempt.position]? = some attempt.unit
  /-- The calls of all passes lead to the end, where the failures are reported. -/
  chained : ∃ settled, Chained settings sink start passes.flatten settled ∧
    batch = { settled with
      notices := settled.notices ++ entries.filterMap BatchEntry.failure? }
  /-- There is one entry for each unit, in the order of the units. -/
  units : entries.map BatchEntry.unit = units
  /-- Each entry is the outcome of the calls for its unit; only a unit that waits is compiled again. -/
  answers : ∀ i entry, entries[i]? = some entry →
    Answers settings sink (callsAt i passes.flatten) entry
  /-- A unit that waits in the end fails in the same way in every call over the registry in the end. -/
  fixed : ∀ entry ∈ entries, ∀ file declaration typeName,
    entry.result = .error (.unknownType file declaration typeName) →
    ∀ (σ ρ : Type) (allocator : SlotAllocator σ) (another : ArtifactSink ρ) (work : Workspace σ ρ),
      work.registry = batch.registry →
      (compile settings allocator another entry.unit work).1.result =
        .error (.unknownType file declaration typeName)

/-- A pass for all units, and passes for those that wait. -/
theorem outcome_of_passes {units : List SourceUnit} {start batch final : Batch τ}
    {calls : List (Attempt τ)} {entries last : List BatchEntry} {more : List (List (Attempt τ))}
    (reached : Reached settings start.registry) (infallible : sink.Infallible)
    (first : Pass settings sink 0 (units.map asked) start calls entries batch)
    (rest : Settles settings sink entries batch more last final)
    (ids : ∀ attempt ∈ (calls :: more).flatten, attempt.unit.FindsIds attempt.before.registry) :
    Outcome settings sink units start (calls :: more) last
      { final with notices := final.notices ++ last.filterMap BatchEntry.failure? } := by
  have hasked : (units.map asked).map BatchEntry.unit = units := by
    rw [List.map_map]
    exact List.map_id _
  have hunits : entries.map BatchEntry.unit = units := first.units.trans hasked
  obtain ⟨hcalls, hmore⟩ := List.forall_mem_append.1 ids
  refine ⟨?_, ?_, ?_, rest.units.trans hunits, ?_, ?_⟩
  · have hle : waiting entries ≤ entries.length := List.countP_le_length
    have hlength : entries.length = units.length := by
      simpa using congrArg List.length hunits
    have := rest.length_le
    rw [List.length_cons]
    omega
  · have hordered := rest.ordered
    rw [hunits] at hordered
    refine List.forall_mem_cons.2 ⟨⟨first.ordered.1, fun attempt hm => ?_⟩, hordered⟩
    obtain ⟨i, hi, hunit⟩ := first.ordered.2 attempt hm
    rwa [hasked, ← Nat.zero_add i, ← hi] at hunit
  · exact ⟨final, first.chained.append rest.chained, rfl⟩
  · refine rest.recorded (first.recorded fun entry hm => ?_)
    obtain ⟨unit, -, rfl⟩ := List.mem_map.1 hm
    rfl
  · intro entry hm file declaration typeName he σ ρ allocator another work hwork
    have hplan := rest.fixed (first.chained.reached reached hcalls) infallible hmore entry hm
      (isWaiting_iff.2 ⟨file, declaration, typeName, he⟩) _ he
    have hwork : work.registry = final.registry := hwork
    rw [← hwork] at hplan
    have hrefused : entry.unit.plan work.registry =
        ⟨(entry.unit.plan work.registry).notices, .error (.unknownType file declaration typeName)⟩ := by
      rw [← hplan]
    rw [compile_of_plan_error hrefused]

/-- **Batches.** Units that are compiled together with a sink that never fails are settled after at most
one pass more than there are units: each has one result, none is compiled again once it has succeeded,
and what waits in the end waits for a type that no unit of the batch generates. -/
theorem compileAll_settles {units : List SourceUnit} {registry : Registry} {artifacts : τ}
    (reached : Reached settings registry) (infallible : sink.Infallible)
    (ids : ∀ attempt ∈ (passes settings sink units registry artifacts).flatten,
      attempt.unit.FindsIds attempt.before.registry) :
    Outcome settings sink units { registry, artifacts }
      (passes settings sink units registry artifacts)
      (compileAll settings sink units registry artifacts).1
      (compileAll settings sink units registry artifacts).2 := by
  unfold passes at ids ⊢
  unfold compileAll
  dsimp only
  rw [compileEach_eq] at ids ⊢
  exact outcome_of_passes reached infallible (pass_retry 0 _ _) (settles_settle _ _) ids

/-- A struct that waits for that of `lamp.glsl`, this struct, and one whose field type is nowhere. -/
def nightUnits : List SourceUnit :=
  [{ key := "torch.glsl", text := "struct Torch\x7bLamp lamp;\x7d;" }, lampUnit,
    { key := "sky.glsl", text := "struct Sky\x7bMoon moon;\x7d;" }]

/-- The passes over a fresh registry. -/
def nightPasses : List (List (Attempt Artifacts)) :=
  passes {} memorySink nightUnits {} []

/-- The first pass compiles `lamp.glsl`, the second one `torch.glsl`, and the third one nothing. -/
theorem compileAll_settles_night : nightPasses.length = 3 ∧
    Outcome {} memorySink nightUnits { registry := {}, artifacts := [] } nightPasses
      (compileAll {} memorySink nightUnits {} []).1
      (compileAll {} memorySink nightUnits {} []).2 := by
  have hpasses : (nightPasses.length == 3 && nightPasses.flatten.all fun attempt =>
      attempt.unit.findsFirstIds attempt.before.registry) = true := by
    decide +kernel
  obtain ⟨hlength, hall⟩ := Bool.and_eq_true_iff.1 hpasses
  have reached : Reached {} { suffixLength := 4 } := .fresh
  exact ⟨eq_of_beq hlength, compileAll_settles reached infallible_memorySink fun attempt hm =>
    findsIds_of_plan (List.all_eq_true.1 hall attempt hm)⟩

end Batch

end UniformLayout
