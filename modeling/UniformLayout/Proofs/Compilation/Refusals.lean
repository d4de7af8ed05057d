import UniformLayout.Compilation.Plan

/-!
# Why a unit cannot be planned

A unit that cannot be planned has a malformed declaration in one of its sources, declarations that do
not resolve, or a layout that cannot be made (`PlanRefusal`). Slots, texture units and sinks have no
part in it.

* `Logged.FailsWith`: what holds of every error that a computation may end with.
* `failsWith_read`: every error of a reader is a malformed declaration of its source.

Main statement: `plan_refusal`.
-/

namespace UniformLayout

/-! ## Errors of computations -/

namespace Logged

variable {ε α β : Type} {p q : ε → Prop}

/-- Every error that the computation may end with has the property. -/
def FailsWith (x : Logged ε α) (p : ε → Prop) : Prop :=
  ∀ e, x.result = .error e → p e

theorem failsWith_pure {a : α} : (pure a : Logged ε α).FailsWith p := by
  intro e he
  cases he

theorem failsWith_throw {e : ε} (h : p e) : (throw e : Logged ε α).FailsWith p := by
  intro other ho
  obtain rfl := Except.error.inj ho
  exact h

theorem failsWith_lift {x : Except ε α} (h : ∀ e, x = .error e → p e) :
    (monadLift x : Logged ε α).FailsWith p :=
  h

theorem FailsWith.mono {x : Logged ε α} (h : x.FailsWith p) (hpq : ∀ e, p e → q e) :
    x.FailsWith q :=
  fun e he => hpq e (h e he)

theorem FailsWith.bind {x : Logged ε α} {f : α → Logged ε β} (h : x.FailsWith p)
    (hf : ∀ a, x.result = .ok a → (f a).FailsWith p) : (x >>= f).FailsWith p := by
  obtain ⟨notices, e | a⟩ := x
  · intro other ho
    obtain rfl := Except.error.inj ho
    exact h e rfl
  · exact hf a rfl

theorem FailsWith.map {x : Logged ε α} (h : x.FailsWith p) (f : α → β) :
    (f <$> x).FailsWith p := by
  rw [map_eq_pure_bind]
  exact h.bind fun _ _ => failsWith_pure

theorem FailsWith.foldlM {step : β → α → Logged ε β}
    (h : ∀ state a, (step state a).FailsWith p) (state : β) (list : List α) :
    (list.foldlM step state).FailsWith p := by
  induction list generalizing state with
  | nil => exact failsWith_pure
  | cons a rest ih =>
    rw [List.foldlM_cons]
    exact (h state a).bind fun next _ => ih next

theorem FailsWith.mapM {f : α → Logged ε β} {list : List α}
    (h : ∀ a ∈ list, (f a).FailsWith p) : (list.mapM f).FailsWith p := by
  induction list with
  | nil => exact failsWith_pure
  | cons a rest ih =>
    obtain ⟨hfirst, hrest⟩ := List.forall_mem_cons.1 h
    rw [List.mapM_cons]
    exact hfirst.bind fun _ _ => (ih hrest).bind fun _ _ => failsWith_pure

end Logged

/-! ## Reading -/

/-- A declaration of the source is malformed. -/
def CompileError.IsMalformation (file : String) (e : CompileError) : Prop :=
  ∃ line declaration reason, e = .malformedDeclaration file line declaration reason

namespace Source

open Logged

variable {scope : Scope} {cursor : Cursor}

theorem failsWith_malformed {α : Type} {declaration : String} {reason : Malformation} :
    (scope.malformed cursor declaration reason : Reading α).FailsWith
      (CompileError.IsMalformation scope.file) :=
  failsWith_throw ⟨_, _, _, rfl⟩

theorem Cursor.failsWith_loop {σ α : Type} {p : CompileError → Prop}
    {step : σ → Cursor → Reading (Turn σ α × Cursor)}
    (h : ∀ state cursor, (step state cursor).FailsWith p) (state : σ) (cursor : Cursor) :
    (loop step state cursor).FailsWith p := by
  induction hn : cursor.rest.length using Nat.strongRecOn generalizing state cursor with
  | ind n ih =>
    subst hn
    rw [loop]
    refine (h state cursor).bind ?_
    rintro ⟨turn, next⟩ -
    cases turn with
    | done => exact failsWith_pure
    | last item => exact failsWith_pure
    | again item after =>
      dsimp only
      split
      · rename_i hlt
        exact (ih _ hlt after next rfl).bind fun _ _ => failsWith_pure
      · exact failsWith_pure

theorem failsWith_arrayLength (declaration field : String) (cursor : Cursor) :
    (arrayLength scope declaration field cursor).FailsWith
      (CompileError.IsMalformation scope.file) := by
  unfold arrayLength
  split
  · split
    · rename_i token inside hi
      dsimp only
      generalize hrest : (fun length : Nat => _) = rest
      have hlater : ∀ length, (rest length).FailsWith (CompileError.IsMalformation scope.file) := by
        subst hrest
        intro length
        dsimp only
        split
        · split
          · exact failsWith_malformed
          · split
            · exact failsWith_malformed
            · exact failsWith_pure
        · exact failsWith_malformed
      split
      · exact failsWith_malformed.bind fun length _ => hlater length
      · exact failsWith_malformed.bind fun length _ => hlater length
      all_goals
        split
        · exact failsWith_pure.bind fun length _ => hlater length
        · exact failsWith_malformed.bind fun length _ => hlater length
    · exact failsWith_malformed
  · exact failsWith_pure

theorem LayoutList.failsWith_entry (declaration : String) (cursor : Cursor) :
    (entry scope declaration () cursor).FailsWith (CompileError.IsMalformation scope.file) := by
  unfold entry
  split
  · split
    · exact failsWith_pure
    · exact failsWith_pure
    · split
      · split
        · split
          · exact failsWith_pure
          · exact failsWith_malformed
        · exact failsWith_malformed
      · exact failsWith_pure
    · exact failsWith_malformed
  · exact failsWith_malformed

theorem LayoutList.failsWith_read (declaration : String) (cursor : Cursor) :
    (read scope declaration cursor).FailsWith (CompileError.IsMalformation scope.file) := by
  unfold read
  split
  · exact (Cursor.failsWith_loop (fun _ => failsWith_entry declaration) () _).bind
      fun _ _ => failsWith_pure
  · exact failsWith_malformed

theorem failsWith_declarator (declaration typeName : String) (cursor : Cursor) :
    (declarator scope declaration typeName () cursor).FailsWith
      (CompileError.IsMalformation scope.file) := by
  unfold declarator
  split
  · refine (failsWith_arrayLength _ _ _).bind fun read _ => ?_
    dsimp only
    split
    · exact failsWith_pure
    · split
      · exact failsWith_pure
      · exact failsWith_malformed
  · exact failsWith_malformed

theorem failsWith_memberLayout (declaration : String) (cursor : Cursor) :
    (memberLayout scope declaration cursor).FailsWith
      (CompileError.IsMalformation scope.file) := by
  unfold memberLayout
  split
  · refine (LayoutList.failsWith_read _ _).bind fun read _ => ?_
    exact FailsWith.bind (fun _ he => by cases he) fun _ _ => failsWith_pure
  · exact failsWith_pure

theorem failsWith_memberGroup (declaration : String) (cursor : Cursor) :
    (memberGroup scope declaration () cursor).FailsWith
      (CompileError.IsMalformation scope.file) := by
  unfold memberGroup
  refine (failsWith_memberLayout _ _).bind fun inner _ => ?_
  split
  · split
    · exact failsWith_pure
    · exact failsWith_malformed
    · exact (Cursor.failsWith_loop (fun _ => failsWith_declarator _ _) () _).bind
        fun _ _ => failsWith_pure
    · exact failsWith_malformed
  · exact failsWith_malformed

theorem failsWith_members (declaration : String) (cursor : Cursor) :
    (members scope declaration cursor).FailsWith (CompileError.IsMalformation scope.file) :=
  (Cursor.failsWith_loop (fun _ => failsWith_memberGroup declaration) () cursor).bind
    fun _ _ => failsWith_pure

theorem failsWith_note {n : Notice} {p : CompileError → Prop} :
    (Logged.note n : Reading Unit).FailsWith p := by
  intro e he
  cases he

theorem failsWith_block (packing : Packing) (start : Token) (layout : LayoutList)
    (attributes : List Attribute) (blockName : Option String) (cursor : Cursor) :
    (block scope packing start layout attributes blockName cursor).FailsWith
      (CompileError.IsMalformation scope.file) := by
  unfold block
  refine (failsWith_members _ _).bind fun read _ => ?_
  refine (failsWith_arrayLength _ _ _).bind fun length _ => ?_
  dsimp only
  split
  · split
    · exact failsWith_note.bind fun _ _ => failsWith_pure
    · split
      · refine failsWith_note.bind fun _ _ => ?_
        split
        · exact failsWith_note.bind fun _ _ => failsWith_pure
        · exact failsWith_pure
      · split
        · exact failsWith_note.bind fun _ _ => failsWith_pure
        · exact failsWith_pure
  · exact failsWith_malformed

theorem failsWith_uniformDeclarator (typeName : String) (layout : LayoutList)
    (attributes : List Attribute) (cursor : Cursor) :
    (uniformDeclarator scope typeName layout attributes () cursor).FailsWith
      (CompileError.IsMalformation scope.file) := by
  unfold uniformDeclarator
  split
  · refine (failsWith_arrayLength _ _ _).bind fun read _ => ?_
    dsimp only
    split
    · exact failsWith_pure
    · split
      · exact failsWith_pure
      · exact failsWith_malformed
  · exact failsWith_malformed

theorem failsWith_uniformBody (packing : Packing) (start : Token) (layout : LayoutList)
    (attributes : List Attribute) (cursor : Cursor) :
    (uniformBody scope packing start layout attributes cursor).FailsWith
      (CompileError.IsMalformation scope.file) := by
  unfold uniformBody
  dsimp only
  split
  · exact failsWith_malformed
  · split
    · exact failsWith_pure
    · exact failsWith_block _ _ _ _ _ _
    · split
      · exact failsWith_block _ _ _ _ _ _
      · exact (Cursor.failsWith_loop (fun _ => failsWith_uniformDeclarator _ _ _) () _).bind
          fun _ _ => failsWith_pure
      · exact failsWith_malformed
    · exact failsWith_malformed

theorem failsWith_uniformStatement (packing : Packing) (attributes : List Attribute)
    (start : Token) (rest : List Token) :
    (uniformStatement scope packing attributes start rest).FailsWith
      (CompileError.IsMalformation scope.file) := by
  unfold uniformStatement
  dsimp only
  generalize hbody : (fun read : LayoutList × Cursor => _) = body
  have hlater : ∀ read, (body read).FailsWith (CompileError.IsMalformation scope.file) := by
    subst hbody
    rintro ⟨layout, cursor⟩
    dsimp only
    split
    · exact failsWith_uniformBody _ _ _ _ _
    · exact failsWith_pure
  split
  · exact (LayoutList.failsWith_read _ _).bind fun read _ => hlater read
  · exact failsWith_pure.bind fun read _ => hlater read

theorem failsWith_statement (pending : Pending) (cursor : Cursor) :
    (statement scope pending cursor).FailsWith (CompileError.IsMalformation scope.file) := by
  unfold statement
  dsimp only
  split
  · exact failsWith_pure
  · split
    · split
      · exact failsWith_pure
      · exact failsWith_pure
    · exact failsWith_pure
    · exact failsWith_pure
    · split
      · split
        · exact ((failsWith_members _ _).bind fun _ _ => failsWith_pure).map _
        · exact failsWith_pure
      · exact failsWith_pure
    · exact (failsWith_uniformStatement _ _ _ _).map _
    · exact (failsWith_uniformStatement _ _ _ _).map _
    · exact failsWith_pure

end Source

open Source Logged

/-- Every error of reading a source is a malformed declaration of this source. -/
theorem failsWith_read (key text : String) :
    (SourceContents.read key text).FailsWith (CompileError.IsMalformation key) := by
  intro e he
  have hentries : (SourceContents.entries key text).result = .error e := by
    unfold SourceContents.read at he
    dsimp only at he
    cases hr : (SourceContents.entries key text).result with
    | error other =>
      rw [hr] at he
      exact congrArg _ (Except.error.inj he)
    | ok list =>
      rw [hr] at he
      cases he
  unfold SourceContents.entries at hentries
  exact ((Cursor.failsWith_loop (fun pending => failsWith_statement pending) _ _).bind
    fun _ _ => failsWith_pure) e hentries

theorem failsWith_readStructs (key text : String) :
    (SourceContents.readStructs key text).FailsWith (CompileError.IsMalformation key) := by
  unfold SourceContents.readStructs
  refine (failsWith_read key text).bind fun contents _ => ?_
  dsimp only
  split
  · exact failsWith_note.bind fun _ _ => failsWith_pure
  · exact failsWith_pure

/-- The keys of the sources of a unit. -/
def SourceUnit.sources (unit : SourceUnit) : List String :=
  unit.key :: unit.shared.map SharedSource.key

/-! ## Planning -/

/-- Why a unit cannot be planned. -/
inductive PlanRefusal (unit : SourceUnit) : CompileError → Prop
  | malformed {file : String} (line : Nat) (declaration : String) (reason : Malformation)
      (mem : file ∈ unit.sources) :
      PlanRefusal unit (.malformedDeclaration file line declaration reason)
  | duplicate (name : String) : PlanRefusal unit (.duplicateDeclaration unit.key name)
  | unknown (declaration typeName : String) :
      PlanRefusal unit (.unknownType unit.key declaration typeName)
  | circular (names : List String) : PlanRefusal unit (.circularDependency unit.key names)
  | unresolved (typeName dependency : String) :
      PlanRefusal unit (.unresolvedType typeName dependency)
  | overflow (typeName field : String) : PlanRefusal unit (.layoutOverflow typeName field)

/-- A refusal before any layout is made: no layout has been missed. -/
structure EarlyRefusal (unit : SourceUnit) (e : CompileError) : Prop where
  refusal : PlanRefusal unit e
  early : ∀ typeName dependency, e ≠ .unresolvedType typeName dependency

variable {unit : SourceUnit}

theorem failsWith_unitRead (unit : SourceUnit) : unit.read.FailsWith (EarlyRefusal unit) := by
  have hmalformed : ∀ key ∈ unit.sources, ∀ e, CompileError.IsMalformation key e →
      EarlyRefusal unit e := by
    rintro key hm _ ⟨line, declaration, reason, rfl⟩
    exact ⟨.malformed line declaration reason hm, fun _ _ he => by cases he⟩
  unfold SourceUnit.read
  refine ((failsWith_read _ _).mono (hmalformed _ List.mem_cons_self)).bind fun contents _ => ?_
  refine FailsWith.bind (FailsWith.mapM fun source hm => ?_) fun _ _ => failsWith_pure
  exact (failsWith_readStructs _ _).mono
    (hmalformed _ (List.mem_cons_of_mem _ (List.mem_map_of_mem hm)))

theorem failsWith_addDistinct (distinct : List TypeDeclaration) (decl : TypeDeclaration) :
    (addDistinct unit.key distinct decl).FailsWith (EarlyRefusal unit) := by
  unfold addDistinct
  split
  · exact failsWith_pure
  · split
    · exact failsWith_note.bind fun _ _ => failsWith_pure
    · exact failsWith_throw ⟨.duplicate _, fun _ _ he => by cases he⟩

section

variable {registry : Registry} {resolution : Resolution} {e : CompileError}

theorem earlyRefusal_of_reference {owner : TypeDeclaration} {name : String}
    (h : resolveReference registry unit.key owner resolution name = .error e) :
    EarlyRefusal unit e := by
  unfold resolveReference at h
  dsimp only at h
  split at h
  · cases h
  · split at h
    · obtain rfl := Except.error.inj h
      exact ⟨.unknown _ _, fun _ _ he => by cases he⟩
    · cases h

theorem earlyRefusal_of_references {references : List (TypeDeclaration × String)}
    (h : references.foldlM (fun resolution reference =>
      resolveReference registry unit.key reference.1 resolution reference.2) resolution =
        .error e) : EarlyRefusal unit e := by
  induction references generalizing resolution with
  | nil => cases h
  | cons reference rest ih =>
    rw [List.foldlM_cons] at h
    rcases bind_eq_error_iff.1 h with hfirst | ⟨next, -, hrest⟩
    · exact earlyRefusal_of_reference hfirst
    · exact ih hrest

theorem earlyRefusal_of_waves {pending : List TypeDeclaration}
    (h : resolveWaves registry unit.key resolution pending = .error e) : EarlyRefusal unit e := by
  induction hn : pending.length using Nat.strongRecOn generalizing pending resolution with
  | ind n ih =>
    subst hn
    rw [resolveWaves] at h
    split at h
    · cases h
    · split at h
      · obtain rfl := Except.error.inj h
        exact ⟨.circular _, fun _ _ he => by cases he⟩
      · rename_i hready
        exact ih _ (blocked_length_lt hready) h rfl

end

theorem failsWith_resolve (registry : Registry) (decls : List TypeDeclaration) :
    (resolve registry unit.key decls).FailsWith (EarlyRefusal unit) := by
  unfold resolve
  refine (FailsWith.foldlM failsWith_addDistinct _ _).bind fun distinct _ => ?_
  refine (failsWith_lift fun e => earlyRefusal_of_references).bind fun referenced _ => ?_
  exact failsWith_lift fun e => earlyRefusal_of_waves

section

variable {nested : LayoutTable} {e : CompileError}

theorem planRefusal_of_field {typeName : String} {cursor : Nat} {field : FieldDeclaration}
    (h : field.layOut typeName nested cursor = .error e) : PlanRefusal unit e := by
  unfold FieldDeclaration.layOut at h
  rcases bind_eq_error_iff.1 h with hshape | ⟨shape, -, hplace⟩
  · unfold FieldDeclaration.shape at hshape
    split at hshape
    · cases hshape
    · split at hshape
      · cases hshape
      · obtain rfl := Except.error.inj hshape
        exact .unresolved _ _
  · split at hplace
    · cases hplace
    · obtain rfl := Except.error.inj hplace
      exact .overflow _ _

theorem planRefusal_of_fields {typeName : String} {cursor : Nat} {fields : List FieldDeclaration}
    (h : layOutFields typeName nested cursor fields = .error e) : PlanRefusal unit e := by
  induction fields generalizing cursor with
  | nil => cases h
  | cons field rest ih =>
    rw [layOutFields] at h
    rcases bind_eq_error_iff.1 h with hfirst | ⟨placed, -, h⟩
    · exact planRefusal_of_field hfirst
    · rcases bind_eq_error_iff.1 h with hrest | ⟨others, -, h⟩
      · exact ih hrest
      · cases h

theorem planRefusal_of_layOut {decl : TypeDeclaration} {contentHash : String}
    (h : decl.layOut contentHash nested = .error e) : PlanRefusal unit e := by
  unfold TypeDeclaration.layOut at h
  rcases bind_eq_error_iff.1 h with hfields | ⟨fields, -, h⟩
  · exact planRefusal_of_fields hfields
  · dsimp only at h
    split at h
    · cases h
    · obtain rfl := Except.error.inj h
      exact .overflow _ _

theorem planRefusal_of_layOutAll {order : List ResolvedType}
    (h : layOutAll nested order = .error e) : PlanRefusal unit e := by
  induction order generalizing nested with
  | nil => cases h
  | cons resolved rest ih =>
    rw [layOutAll] at h
    rcases bind_eq_error_iff.1 h with hfirst | ⟨layout, -, h⟩
    · exact planRefusal_of_layOut hfirst
    · rcases bind_eq_error_iff.1 h with hrest | ⟨others, -, h⟩
      · exact ih hrest
      · cases h

end

/-- **Refusals.** A unit that cannot be planned is refused for what its sources declare. -/
theorem plan_refusal {registry : Registry} {e : CompileError}
    (h : (unit.plan registry).result = .error e) : PlanRefusal unit e := by
  have hplan : (unit.plan registry).FailsWith (PlanRefusal unit) := by
    unfold SourceUnit.plan
    refine ((failsWith_unitRead unit).mono fun _ h => h.refusal).bind fun read _ => ?_
    refine ((failsWith_resolve registry _).mono fun _ h => h.refusal).bind fun resolution _ => ?_
    refine (failsWith_lift fun e he => ?_).bind fun types _ => failsWith_pure
    unfold Resolution.plannedTypes at he
    rcases bind_eq_error_iff.1 he with hlaid | ⟨fresh, -, he⟩
    · exact planRefusal_of_layOutAll hlaid
    · cases he
  exact hplan e h

theorem PlanRefusal.ne_binding {e : CompileError} (h : PlanRefusal unit e) (cause : BindingError) :
    e ≠ .binding cause := by
  rintro rfl
  cases h

end UniformLayout
