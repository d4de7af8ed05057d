import UniformLayout.Proofs.Instance.Writes

/-!
# Accessors as they run

An accessor works on the instance where it lies and tells the registrar of handles as it goes; what it
has done by the time it fails stays done. The accessors are written out here as such programs, with
their steps in order. All of them turn out to check first and to write afterwards: a program does what
the accessor answers (`InPlace.Does`), and a program that fails has done nothing.

* `InPlace.does_set`, `InPlace.does_setHandle`, `InPlace.does_locate`: the accessors one by one.
* `InPlace.Does.along`: a program that runs on a nested instance.
* `InstanceCall.apply_eq`: the table of handles is what the registrar makes of what it is told.

Main statement: `SiteCall.does`.
-/

namespace UniformLayout

/-! ## Programs -/

/-- What the registrar is told when a handle is stored. -/
structure HandleNotice where
  field : String
  target : Option TextureTarget
  unit : Nat
  handle : TextureHandle
  deriving DecidableEq, Repr

/-- A table after the notice. -/
def HandleTable.heed (table : HandleTable) (notice : HandleNotice) : HandleTable :=
  table.put notice.unit notice.target notice.handle

/-- An instance that programs work on, and what the registrar has been told so far. -/
structure Site where
  inst : StructInstance
  told : List HandleNotice

/-- A program answers or fails, and leaves the site as its steps have made it by then. -/
def InPlace (α : Type) : Type := Site → Except AccessError α × Site

namespace InPlace

variable {α β : Type}

/-- A step that fails ends the program. -/
def andThen (next : α → InPlace β) : Except AccessError α × Site → Except AccessError β × Site
  | (.ok a, site) => next a site
  | (.error e, site) => (.error e, site)

instance : Monad InPlace where
  pure a := fun site => (.ok a, site)
  bind run next := fun site => andThen next (run site)

def fail (e : AccessError) : InPlace α := fun site => (.error e, site)

/-- Looks at the instance. -/
def ask (look : StructInstance → Except AccessError α) : InPlace α :=
  fun site => (look site.inst, site)

def check (result : Except AccessError α) : InPlace α := ask fun _ => result

/-- Changes the state of a field. -/
def modify (index : Nat) (change : FieldState → FieldState) : InPlace Unit := fun site =>
  (.ok (), { site with inst := { site.inst with fields := site.inst.fields.modify index change } })

def tell (notice : HandleNotice) : InPlace Unit := fun site =>
  (.ok (), { site with told := site.told ++ [notice] })

/-- Changes the instance as a whole. -/
def reshape (change : StructInstance → StructInstance) : InPlace Unit := fun site =>
  (.ok (), { site with inst := change site.inst })

end InPlace

/-! ## Single elements -/

namespace FieldState

def storeValue (element : Nat) (value : UniformValue) : FieldState → FieldState
  | ⟨.values list, dirty, location, unit⟩ => ⟨.values (list.set element value), dirty, location, unit⟩
  | state => state

def storeHandle (element : Nat) (handle : TextureHandle) : FieldState → FieldState
  | ⟨.handles list, dirty, location, unit⟩ =>
    ⟨.handles (list.set element (some handle)), dirty, location, unit⟩
  | state => state

/-- Sets the dirty flag of an element. -/
def mark (element : Nat) (state : FieldState) : FieldState :=
  { state with dirty := state.dirty.set element true }

/-- A state with a handle in it, if it holds handles. -/
def takeHandle (element : Nat) (handle : TextureHandle) (state : FieldState) : FieldState :=
  match state.contents with
  | .handles list =>
    { state with
      contents := .handles (list.set element (some handle)), dirty := state.dirty.set element true }
  | _ => state

end FieldState

/-- What the registrar is told when a handle is stored in an element of the field. -/
def FieldView.notices (view : FieldView) (element : Nat) (handle : TextureHandle) :
    List HandleNotice :=
  match view.schema.kind, view.state.unit with
  | .handle kind, some unit => [⟨view.schema.name, kind.target?, unit + element, handle⟩]
  | _, _ => []

def StructInstance.notices (inst : StructInstance) (name : String) (element : Nat)
    (handle : TextureHandle) : List HandleNotice :=
  ((inst.lookup name).toOption.map (·.notices element handle)).getD []

/-! ## The accessors -/

namespace InPlace

def set (name : String) (element : Option Nat) (value : UniformValue) : InPlace Unit := do
  let view ← ask (·.lookup name)
  let index ← check (view.schema.position element "a single value")
  if !StructInstance.accepts view.schema value then fail (view.schema.mismatch value.describe)
  else
    ask (·.checkLocated view)
    match view.state.contents with
    | .values _ =>
      modify view.index (·.storeValue index value)
      modify view.index (·.mark index)
    | _ => pure ()

/-- Stores a handle in a field that holds handles. -/
def storeHandle (view : FieldView) (element : Nat) (handle : TextureHandle) : InPlace Unit :=
  match view.state.contents with
  | .handles _ => do
    modify view.index (·.storeHandle element handle)
    modify view.index (·.mark element)
  | _ => pure ()

/-- Tells the registrar of a handle if the field has texture units. -/
def announce (view : FieldView) (kind : HandleKind) (element : Nat) (handle : TextureHandle) :
    InPlace Unit :=
  match view.state.unit with
  | some unit => tell ⟨view.schema.name, kind.target?, unit + element, handle⟩
  | none => pure ()

def setHandle (name : String) (element : Nat) (handle : TextureHandle) : InPlace Unit := do
  let view ← ask (·.lookup name)
  match view.schema.kind with
  | .handle kind =>
    check (view.schema.checkBounds element)
    ask (·.checkLocated view)
    storeHandle view element handle
    announce view kind element handle
  | _ => fail (view.schema.mismatch "a texture handle")

def locate (name : String) (location : Nat) : InPlace Unit := do
  let view ← ask (·.lookup name)
  match view.schema.kind with
  | .aggregate _ => fail (view.schema.mismatch "a leaf location")
  | _ => modify view.index fun state => { state with location := some location }

/-- Runs on the nested instance that a step leads to, where it lies. -/
def within (step : PathStep) (run : InPlace Unit) : InPlace Unit := fun site =>
  match site.inst.findChild step with
  | .error e => (.error e, site)
  | .ok (view, list, index, child) =>
    let (answer, after) := run ⟨child, site.told⟩
    let state := { view.state with contents := .children (list.set index after.inst) }
    (answer, ⟨site.inst.setState view.index state, after.told⟩)

/-- Runs on the instance at the end of the path. -/
def along (path : List PathStep) (run : InPlace Unit) : InPlace Unit := path.foldr within run

/-! ## All or nothing -/

/-- The site after a call with the given answer. -/
def settle (site : Site) :
    Except AccessError (StructInstance × List HandleNotice) → Except AccessError Unit × Site
  | .ok (next, notices) => (.ok (), ⟨next, site.told ++ notices⟩)
  | .error e => (.error e, site)

/-- The program does what the function answers, and nothing where it fails. -/
def Does (run : InPlace Unit)
    (answer : StructInstance → Except AccessError (StructInstance × List HandleNotice)) : Prop :=
  ∀ site, run site = settle site (answer site.inst)

/-- A call without a notice. -/
theorem settle_quiet (site : Site) (next : StructInstance) :
    settle site (.ok (next, [])) = (.ok (), ⟨next, site.told⟩) := by
  rw [settle, List.append_nil]

section

variable {α β : Type} {look : StructInstance → Except AccessError α} {next : α → InPlace β}
  {site : Site}

theorem ask_of_ok {a : α} (h : look site.inst = .ok a) : (ask look >>= next) site = next a site := by
  change andThen next (look site.inst, site) = next a site
  rw [h]
  rfl

theorem ask_of_error {e : AccessError} (h : look site.inst = .error e) :
    (ask look >>= next) site = (.error e, site) := by
  change andThen next (look site.inst, site) = _
  rw [h]
  rfl

theorem check_of_ok {result : Except AccessError α} {a : α} (h : result = .ok a) :
    (check result >>= next) site = next a site := ask_of_ok h

theorem check_of_error {result : Except AccessError α} {e : AccessError} (h : result = .error e) :
    (check result >>= next) site = (.error e, site) := ask_of_error h

end

section

variable {inst : StructInstance} {name : String} {view : FieldView}

/-- A change of the state that was looked at. -/
theorem modify_of_lookup (hv : inst.lookup name = .ok view) (change : FieldState → FieldState) :
    inst.fields.modify view.index change = inst.fields.set view.index (change view.state) := by
  obtain ⟨-, -, hstate⟩ := StructInstance.lookup_eq_ok hv
  obtain ⟨hlt, hat⟩ := List.getElem?_eq_some_iff.1 hstate
  refine List.ext_getElem? fun index => ?_
  rw [List.getElem?_modify, List.getElem?_set]
  by_cases he : view.index = index
  · subst he
    simp [hlt, hat]
  · simp [he]

/-- Two changes of a state, one after the other. -/
theorem modify_twice {told : List HandleNotice} (hv : inst.lookup name = .ok view)
    (first second : FieldState → FieldState) :
    (modify view.index first >>= fun _ => modify view.index second) ⟨inst, told⟩ =
      (.ok (), ⟨inst.setState view.index (second (first view.state)), told⟩) := by
  have hboth : (inst.fields.modify view.index first).modify view.index second =
      inst.fields.set view.index (second (first view.state)) := by
    rw [List.modify_modify_eq, modify_of_lookup hv]
    rfl
  change (Except.ok (), (⟨{ inst with fields := _ }, told⟩ : Site)) = _
  rw [hboth]
  rfl

end

theorem does_set (name : String) (element : Option Nat) (value : UniformValue) :
    (set name element value).Does fun inst => (inst.set name element value).map (·, []) := by
  rintro ⟨inst, told⟩
  unfold set StructInstance.set
  cases hv : inst.lookup name with
  | error e =>
    rw [ask_of_error hv]
    dsimp only
    rw [hv]
    rfl
  | ok view =>
    rw [ask_of_ok hv]
    dsimp only
    rw [hv, ok_bind]
    cases hp : view.schema.position element "a single value" with
    | error e =>
      rw [check_of_error rfl]
      rfl
    | ok index =>
      rw [check_of_ok rfl, ok_bind]
      cases ha : StructInstance.accepts view.schema value with
      | false => rfl
      | true =>
        simp only [Bool.not_true, Bool.false_eq_true, if_false]
        cases hl : inst.checkLocated view with
        | error e =>
          rw [ask_of_error hl]
          rfl
        | ok located =>
          rw [ask_of_ok hl, ok_bind]
          have htwice := @modify_twice inst name view told hv (·.storeValue index value)
            (·.mark index)
          obtain ⟨viewIndex, schema, ⟨contents, dirty, location, unit⟩⟩ := view
          cases contents with
          | handles list | children list => exact (settle_quiet ⟨inst, told⟩ inst).symm
          | values list => exact htwice.trans (settle_quiet ⟨inst, told⟩ _).symm

theorem does_locate (name : String) (location : Nat) :
    (locate name location).Does fun inst => (inst.locate name location).map (·, []) := by
  rintro ⟨inst, told⟩
  unfold locate StructInstance.locate
  cases hv : inst.lookup name with
  | error e =>
    rw [ask_of_error hv]
    dsimp only
    rw [hv]
    rfl
  | ok view =>
    rw [ask_of_ok hv]
    dsimp only
    rw [hv, ok_bind]
    have hset := modify_of_lookup hv fun state => { state with location := some location }
    have hmodify : modify view.index (fun state => { state with location := some location })
        ⟨inst, told⟩ = (.ok (), ⟨inst.setState view.index
          { view.state with location := some location }, told⟩) := by
      rw [modify, hset]
      rfl
    cases hk : view.schema.kind with
    | aggregate inner => rfl
    | value type | handle kind => exact hmodify.trans (settle_quiet ⟨inst, told⟩ _).symm

/-- A state that is put where it was looked at. -/
theorem setState_self {inst : StructInstance} {name : String} {view : FieldView}
    (hv : inst.lookup name = .ok view) : inst.setState view.index view.state = inst := by
  obtain ⟨-, -, hstate⟩ := StructInstance.lookup_eq_ok hv
  obtain ⟨hlt, hat⟩ := List.getElem?_eq_some_iff.1 hstate
  unfold StructInstance.setState
  rw [← hat, List.set_getElem_self]
  cases inst
  rfl

theorem storeHandle_apply {inst : StructInstance} {name : String} {view : FieldView}
    (hv : inst.lookup name = .ok view) (told : List HandleNotice) (element : Nat)
    (handle : TextureHandle) :
    storeHandle view element handle ⟨inst, told⟩ =
      (.ok (), ⟨inst.setState view.index (view.state.takeHandle element handle), told⟩) := by
  have htwice := @modify_twice inst name view told hv (·.storeHandle element handle)
    (·.mark element)
  have hself := setState_self hv
  obtain ⟨viewIndex, schema, ⟨contents, dirty, location, unit⟩⟩ := view
  cases contents with
  | handles list => exact htwice
  | values list | children list =>
    dsimp only [FieldState.takeHandle] at hself ⊢
    rw [hself]
    rfl

theorem announce_apply {view : FieldView} {kind : HandleKind} (hk : view.schema.kind = .handle kind)
    (site : Site) (element : Nat) (handle : TextureHandle) :
    announce view kind element handle site =
      (.ok (), { site with told := site.told ++ view.notices element handle }) := by
  unfold announce FieldView.notices
  rw [hk]
  cases view.state.unit with
  | some unit => rfl
  | none => rw [List.append_nil]; rfl

theorem does_setHandle (name : String) (element : Nat) (handle : TextureHandle) :
    (setHandle name element handle).Does fun inst =>
      (inst.setHandle name element handle []).map fun made =>
        (made.1, inst.notices name element handle) := by
  rintro ⟨inst, told⟩
  unfold setHandle StructInstance.setHandle StructInstance.notices
  cases hv : inst.lookup name with
  | error e =>
    rw [ask_of_error hv]
    dsimp only
    rw [hv]
    rfl
  | ok view =>
    rw [ask_of_ok hv]
    dsimp only
    rw [hv, ok_bind]
    cases hk : view.schema.kind with
    | value type | aggregate inner => rfl
    | handle kind =>
      dsimp only
      cases hb : view.schema.checkBounds element with
      | error e =>
        rw [check_of_error rfl]
        rfl
      | ok bounds =>
        rw [check_of_ok rfl, ok_bind]
        cases hl : inst.checkLocated view with
        | error e =>
          rw [ask_of_error hl]
          rfl
        | ok located =>
          rw [ask_of_ok hl, ok_bind]
          have hstore := storeHandle_apply hv told element handle
          have hannounce := announce_apply hk
            ⟨inst.setState view.index (view.state.takeHandle element handle), told⟩ element handle
          change andThen _ (storeHandle view element handle ⟨inst, told⟩) = _
          rw [hstore]
          exact hannounce

theorem does_reshape (change : StructInstance → StructInstance) :
    (reshape change).Does fun inst => .ok (change inst, []) :=
  fun site => (settle_quiet site (change site.inst)).symm

/-- What a program does to a nested instance, it does to the whole one. -/
theorem Does.within {run : InPlace Unit}
    {answer : StructInstance → Except AccessError (StructInstance × List HandleNotice)}
    {rest : List PathStep} (h : run.Does (StructInstance.updateAt answer rest)) (step : PathStep) :
    (within step run).Does (StructInstance.updateAt answer (step :: rest)) := by
  rintro ⟨inst, told⟩
  unfold InPlace.within
  rw [StructInstance.updateAt]
  cases hf : inst.findChild step with
  | error e => rfl
  | ok found =>
    obtain ⟨view, list, index, child⟩ := found
    obtain ⟨hv, hcontents, hchild⟩ := StructInstance.findChild_eq_ok hf
    dsimp only
    rw [h ⟨child, told⟩, ok_bind]
    cases hu : StructInstance.updateAt answer rest child with
    | ok made => rfl
    | error e =>
      -- the child is put back as it was
      obtain ⟨hlt, hat⟩ := List.getElem?_eq_some_iff.1 hchild
      have hself := setState_self hv
      obtain ⟨viewIndex, schema, ⟨contents, dirty, location, unit⟩⟩ := view
      obtain rfl : contents = .children list := hcontents
      change (_, Site.mk (inst.setState viewIndex
        ⟨.children (list.set index child), dirty, location, unit⟩) told) = _
      rw [← hat, List.set_getElem_self]
      exact congrArg (fun inst => (Except.error e, Site.mk inst told)) hself

theorem Does.along {run : InPlace Unit}
    {answer : StructInstance → Except AccessError (StructInstance × List HandleNotice)}
    (h : run.Does answer) (path : List PathStep) :
    (along path run).Does (StructInstance.updateAt answer path) := by
  induction path with
  | nil => exact h
  | cons step rest ih => exact ih.within step

end InPlace

/-! ## Calls -/

/-- What a call answers: the instance afterwards, and what the registrar is told. -/
def InstanceCall.answer (inst : StructInstance) :
    InstanceCall → Except AccessError (StructInstance × List HandleNotice)
  | .set name element value => (inst.set name element value).map (·, [])
  | .setHandle name element handle =>
    (inst.setHandle name element handle []).map fun made =>
      (made.1, inst.notices name element handle)
  | .locate name location => (inst.locate name location).map (·, [])
  | .attach => .ok (inst.attach, [])

/-- The registrar's table follows from what it is told. -/
theorem InstanceCall.apply_eq (call : InstanceCall) (table : HandleTable) (inst : StructInstance) :
    call.apply table inst =
      (call.answer inst).map fun made => (made.1, made.2.foldl HandleTable.heed table) := by
  cases call with
  | set name element value =>
    rw [apply, answer]
    cases inst.set name element value <;> rfl
  | locate name location =>
    rw [apply, answer]
    cases inst.locate name location <;> rfl
  | attach => rfl
  | setHandle name element handle =>
    rw [apply, answer]
    unfold StructInstance.setHandle StructInstance.notices
    cases inst.lookup name with
    | error e => rfl
    | ok view =>
      rw [ok_bind, ok_bind]
      dsimp only
      cases hk : view.schema.kind with
      | value type | aggregate inner => rfl
      | handle kind =>
        dsimp only
        cases view.schema.checkBounds element with
        | error e => rfl
        | ok bounds =>
          cases inst.checkLocated view with
          | error e => rfl
          | ok located =>
            simp only [ok_bind, Except.toOption, Option.map_some, Option.getD_some,
              FieldView.notices, hk]
            cases view.state.unit <;> rfl

/-- A call on an instance that may change it. -/
inductive SiteCall where
  | on (call : InstanceCall)
  | locateAtOffsets
  | setClean

namespace SiteCall

def answer (inst : StructInstance) :
    SiteCall → Except AccessError (StructInstance × List HandleNotice)
  | .on call => call.answer inst
  | .locateAtOffsets => .ok (inst.locateAtOffsets, [])
  | .setClean => .ok (inst.setClean, [])

/-- The program of the call. -/
def run : SiteCall → InPlace Unit
  | .on (.set name element value) => InPlace.set name element value
  | .on (.setHandle name element handle) => InPlace.setHandle name element handle
  | .on (.locate name location) => InPlace.locate name location
  | .on .attach => InPlace.reshape StructInstance.attach
  | .locateAtOffsets => InPlace.reshape StructInstance.locateAtOffsets
  | .setClean => InPlace.reshape StructInstance.setClean

/-- **All or nothing.** The program of a call does what the call answers. If it fails, the instance is
as it was, and the registrar has not been told anything. -/
theorem does (call : SiteCall) : call.run.Does fun inst => call.answer inst := by
  rcases call with (⟨name, element, value⟩ | ⟨name, element, handle⟩ | ⟨name, location⟩ | _) | _ | _
  · exact InPlace.does_set name element value
  · exact InPlace.does_setHandle name element handle
  · exact InPlace.does_locate name location
  · exact InPlace.does_reshape StructInstance.attach
  · exact InPlace.does_reshape StructInstance.locateAtOffsets
  · exact InPlace.does_reshape StructInstance.setClean

end SiteCall

end UniformLayout
