import UniformLayout.Proofs.Compilation.FieldNames
import UniformLayout.Proofs.Instance.Listing
import UniformLayout.Proofs.Instance.Reached

/-!
# Changes and the calls that made them

A list of the elements that were written and not cleaned since is kept beside an instance
(`Tracker`). Every call keeps it in step with the flags, so the changes of the instance are the
elements of the list, in the order of the image. That order needs each schema to have the size that
its hash stands for. In `blend.glsl` one has not, and two elements are listed with one offset.

* `SiteCall.pending_track`: what one call does to the flags and to the list.
* `Tracker.Exact.run`: all calls.

Main statements: `changes_tracked` and `changes_share_offset`.
-/

namespace UniformLayout

/-! ## Names in layouts -/

/-- The names of the fields are identifiers and differ. -/
structure StructLayout.WellNamed (layout : StructLayout) : Prop where
  apart : layout.NamesApart
  identifiers : ∀ name ∈ layout.fields.map FieldLayout.name, IsIdentifier name

theorem fieldsNamed_step (scope : SchemaScope) :
    scope.Step StructLayout.WellNamed fun _ schema => schema.FieldsNamed := by
  intro layout identity units fields hn _ _ hfields
  have hnames : fields.map FieldSchema.name = layout.fields.map FieldLayout.name :=
    map_eq_of_forall₂ hfields fun _ _ _ hb => hb.name
  refine .intro (fun field hm => ?_) ?_
  · refine hn.identifiers _ ?_
    rw [← hnames]
    exact List.mem_map_of_mem hm
  · refine forall_of_forall₂ hfields fun field _ schema hb => ?_
    have hkind := hb.kind
    generalize field.shape = shape at hkind
    generalize schema.kind = kind at hkind
    cases hkind with
    | handle handle => exact nofun
    | value type hv => exact nofun
    | aggregate hbuilt => exact fun inner he => FieldKind.aggregate.inj he ▸ hbuilt

/-! ## Written elements -/

/-- What is written and not cleaned after a call at the end of a path was accepted, where it was
`pending` before. -/
def SiteCall.track (path : List PathStep) (inst : StructInstance) (pending : List (Spot × Nat)) :
    SiteCall → List (Spot × Nat)
  | .on (.set name element _) =>
    (inst.spot? path name).elim pending fun spot => pending.insert (spot, element.getD 0)
  | .on (.setHandle name element _) =>
    (inst.spot? path name).elim pending fun spot => pending.insert (spot, element)
  | .on (.locate _ _) | .on .attach | .locateAtOffsets => pending
  | .setClean =>
    (inst.way? path).elim pending fun way =>
      pending.filter fun element => !way.isPrefixOf element.1.way

/-- An instance, and the elements that were written and not cleaned since. -/
structure Tracker where
  site : Site
  pending : List (Spot × Nat)

namespace Tracker

/-- Makes a call on the instance at the end of a path. -/
def perform (tracker : Tracker) (call : List PathStep × SiteCall) : Tracker :=
  match InPlace.along call.1 call.2.run tracker.site with
  | (.ok _, site) => ⟨site, call.2.track call.1 tracker.site.inst tracker.pending⟩
  | (.error _, site) => ⟨site, tracker.pending⟩

def run (tracker : Tracker) (calls : List (List PathStep × SiteCall)) : Tracker :=
  calls.foldl perform tracker

theorem site_perform (tracker : Tracker) (call : List PathStep × SiteCall) :
    (tracker.perform call).site = tracker.site.perform call := by
  unfold perform Site.perform
  split
  · rename_i h
    rw [h]
  · rename_i h
    rw [h]

/-- The list has no part in what happens to the instance. -/
theorem site_run (tracker : Tracker) (calls : List (List PathStep × SiteCall)) :
    (tracker.run calls).site = tracker.site.run calls := by
  unfold run Site.run
  induction calls generalizing tracker with
  | nil => rfl
  | cons call rest ih =>
    rw [List.foldl_cons, List.foldl_cons, ih, site_perform]

end Tracker

/-- A new instance of the schema, where nothing has been written. -/
def TypeSchema.tracker (schema : TypeSchema) : Tracker := ⟨schema.site, []⟩

/-! ## Flags -/

variable {inst child next after before : StructInstance} {path : List PathStep} {way : Way}
  {spot : Spot} {index : Nat}

/-- A write makes its element dirty, and no other. -/
theorem Touches.dirtyAt_take {content : ElementContent}
    (h : Touches spot (· = index) (.take content) before after)
    (hsome : (before.elementAt? spot index).isSome) (element : Spot × Nat) :
    after.dirtyAt element.1 element.2 = true ↔
      element = (spot, index) ∨ before.dirtyAt element.1 element.2 = true := by
  unfold StructInstance.dirtyAt
  obtain ⟨other, position⟩ := element
  by_cases he : other = spot ∧ position = index
  · obtain ⟨rfl, rfl⟩ := he
    obtain ⟨held, hheld⟩ := Option.isSome_iff_exists.1 hsome
    rw [h.there position rfl, hheld]
    simp [LeafElement.take]
  · rw [h.elsewhere other position he]
    constructor
    · exact .inr
    · rintro (heq | hd)
      · exact absurd (Prod.mk.inj heq) he
      · exact hd

theorem Touches.dirtyAt_locate {location : Nat} {indices : Nat → Prop}
    (h : Touches spot indices (.locate location) before after) (other : Spot) (position : Nat) :
    after.dirtyAt other position = before.dirtyAt other position :=
  h.stays (Option.any LeafElement.dirty) (fun element => by rw [Option.any_map]; rfl) other position

namespace StructInstance

theorem dirtyAt_core (inst : StructInstance) (spot : Spot) (index : Nat) :
    inst.core.dirtyAt spot index = inst.dirtyAt spot index := by
  unfold dirtyAt elementAt?
  rw [leafAt?_map everywhere_core]
  cases inst.leafAt? spot with
  | none => rfl
  | some state =>
    obtain ⟨contents, dirty, location, unit⟩ := state
    rw [Option.map_some, Option.bind_some, Option.bind_some]
    cases contents with
    | values list | handles list =>
      rw [FieldState.core]
      simp only [FieldState.element?]
      cases list[index]? <;> cases dirty[index]? <;> rfl
    | children list =>
      rw [FieldState.core]
      rfl

theorem dirtyAt_locateAtOffsets (inst : StructInstance) (spot : Spot) (index : Nat) :
    inst.locateAtOffsets.dirtyAt spot index = inst.dirtyAt spot index := by
  unfold locateAtOffsets
  rw [← dirtyAt_core, inst.core_locateFrom 0, dirtyAt_core]

theorem dirtyAt_setClean (inst : StructInstance) (spot : Spot) (index : Nat) :
    inst.setClean.dirtyAt spot index = false := by
  unfold dirtyAt
  rw [elementAt?_setClean, Option.any_map]
  cases inst.elementAt? spot index <;> rfl

namespace ChangedAt

variable (h : ChangedAt path way inst child next after)
include h

theorem dirtyAt_inside (rest : Way) (position index : Nat) :
    after.dirtyAt ⟨way ++ rest, position⟩ index = next.dirtyAt ⟨rest, position⟩ index :=
  congrArg (·.any (·.dirty)) (h.elementAt?_inside position index)

theorem dirtyAt_outside (hs : ¬ way <+: spot.way) (index : Nat) :
    after.dirtyAt spot index = inst.dirtyAt spot index :=
  congrArg (·.any (·.dirty)) (h.elementAt?_outside hs index)

end ChangedAt

/-- Nothing in a new instance is dirty. -/
theorem dirtyAt_instantiate {schema : TypeSchema} (hk : schema.Kinded) (spot : Spot) (index : Nat) :
    schema.instantiate.dirtyAt spot index = false := by
  have ht := hk.typed_instantiate
  have hf := hk.startsFresh.flagged
  have hkinded : schema.instantiate.schema.Kinded := schema.schema_instantiate.symm ▸ hk
  have hclean : schema.instantiate.isDirty = false := by
    rw [isDirty_eq 0 _ hf ht, List.any_eq_false]
    intro cell hm
    rw [(hk.startsFresh.fresh 0 cell hm).clean]
    exact Bool.false_ne_true
  have hnone : schema.instantiate.dirtyFields = [] := by
    by_contra hne
    rw [(isDirty_iff ht hf).2 hne] at hclean
    cases hclean
  rw [← Bool.not_eq_true, exists_reports_iff ht hf]
  rintro ⟨change, h⟩
  have hm := (mem_dirtyFields_iff hkinded ht).2 ⟨spot, index, h⟩
  rw [hnone] at hm
  cases hm

end StructInstance

/-! ## Calls -/

/-- The list has the dirty elements of the instance, each once. -/
structure DirtyElements (inst : StructInstance) (pending : List (Spot × Nat)) : Prop where
  nodup : pending.Nodup
  mem_iff : ∀ element, element ∈ pending ↔ inst.dirtyAt element.1 element.2 = true

namespace DirtyElements

variable {pending : List (Spot × Nat)}

theorem keep (h : DirtyElements inst pending)
    (hk : ∀ spot index, after.dirtyAt spot index = inst.dirtyAt spot index) :
    DirtyElements after pending :=
  ⟨h.nodup, fun element => by rw [h.mem_iff, hk]⟩

/-- A call that leaves the flags below a path alone leaves all flags alone. -/
theorem keep_below (h : DirtyElements inst pending)
    (hc : StructInstance.ChangedAt path way inst child next after)
    (hk : ∀ spot index, next.dirtyAt spot index = child.dirtyAt spot index) :
    DirtyElements after pending :=
  h.keep (hc.stays (Option.any LeafElement.dirty) hk)

theorem write (h : DirtyElements inst pending) {name : String} {content : ElementContent}
    (hw : Written path name index content inst after) :
    DirtyElements after
      ((inst.spot? path name).elim pending fun spot => pending.insert (spot, index)) := by
  obtain ⟨spot, hs, hsome, htouches⟩ := hw
  rw [hs]
  refine ⟨h.nodup.insert, fun element => ?_⟩
  rw [htouches.dirtyAt_take hsome, ← h.mem_iff]
  exact List.mem_insert_iff

/-- Everything below the path is clean afterwards, and all else as it was. -/
theorem clean (h : DirtyElements inst pending)
    (hc : StructInstance.ChangedAt path way inst child child.setClean after) :
    DirtyElements after ((inst.way? path).elim pending fun way =>
      pending.filter fun element => !way.isPrefixOf element.1.way) := by
  rw [hc.takes]
  refine ⟨h.nodup.filter _, fun ⟨spot, index⟩ => ?_⟩
  change _ ∈ pending.filter _ ↔ _
  rw [List.mem_filter, h.mem_iff, Bool.not_eq_true', ← Bool.not_eq_true, List.isPrefixOf_iff_prefix]
  dsimp only
  by_cases hp : way <+: spot.way
  · have hclean : after.dirtyAt spot index = false := by
      obtain ⟨spotWay, position⟩ := spot
      obtain ⟨rest, rfl⟩ := hp
      rw [hc.dirtyAt_inside, StructInstance.dirtyAt_setClean]
    simp [hp, hclean]
  · rw [hc.dirtyAt_outside hp]
    simp [hp]

end DirtyElements

/-- An accepted call at the end of a path keeps the list in step with the flags. -/
theorem SiteCall.pending_track {call : SiteCall} {notices : List HandleNotice}
    {pending : List (Spot × Nat)} (ht : child.Typed) (hf : child.Flagged)
    (ha : call.answer child = .ok (next, notices))
    (hc : StructInstance.ChangedAt path way inst child next after)
    (h : DirtyElements inst pending) : DirtyElements after (call.track path inst pending) := by
  cases call with
  | on call =>
    have hobeyed : call.Obeyed path ⟨inst, []⟩ ⟨after, [] ++ notices⟩ :=
      InstanceCall.obeyed_of_answer ht hf ha hc
    cases call with
    | set name element value => exact h.write hobeyed.1
    | setHandle name element handle => exact h.write hobeyed.1
    | locate name location =>
      obtain ⟨⟨spot, -, -, htouches⟩, -⟩ := hobeyed
      exact h.keep htouches.dirtyAt_locate
    | attach =>
      obtain ⟨hsame, -⟩ := hobeyed
      exact h.keep fun spot index => congrArg (·.any (·.dirty)) (hsame spot index)
  | locateAtOffsets =>
    obtain ⟨rfl, -⟩ := Prod.mk.inj (Except.ok.inj ha)
    exact h.keep_below hc child.dirtyAt_locateAtOffsets
  | setClean =>
    obtain ⟨rfl, -⟩ := Prod.mk.inj (Except.ok.inj ha)
    exact h.clean hc

namespace Tracker

variable {schema : TypeSchema} {tracker : Tracker}

/-- The list is in step with an instance of the schema. -/
structure Exact (schema : TypeSchema) (tracker : Tracker) : Prop where
  sound : tracker.site.Sound schema
  pending : DirtyElements tracker.site.inst tracker.pending

theorem Exact.perform (h : tracker.Exact schema) (call : List PathStep × SiteCall) :
    (tracker.perform call).Exact schema := by
  refine ⟨?_, ?_⟩
  · rw [site_perform]
    exact h.sound.perform call
  · obtain ⟨path, call⟩ := call
    unfold Tracker.perform
    dsimp only
    rw [call.does.along path tracker.site]
    cases hu : tracker.site.inst.updateAt (fun inst => call.answer inst) path with
    | error e => exact h.pending
    | ok made =>
      obtain ⟨after, notices⟩ := made
      obtain ⟨way, child, next, htyped, hflagged, ha, hc⟩ := h.sound.accepted hu
      exact SiteCall.pending_track htyped hflagged ha hc h.pending

theorem Exact.run (h : tracker.Exact schema) (calls : List (List PathStep × SiteCall)) :
    (tracker.run calls).Exact schema := by
  unfold Tracker.run
  induction calls generalizing tracker with
  | nil => exact h
  | cons call rest ih => exact ih (h.perform call)

theorem exact_new (hk : schema.Kinded) : schema.tracker.Exact schema where
  sound := Site.sound_new hk
  pending := ⟨List.nodup_nil, fun element => by
    change _ ↔ schema.instantiate.dirtyAt element.1 element.2 = true
    rw [StructInstance.dirtyAt_instantiate hk]
    simp [TypeSchema.tracker]⟩

end Tracker

/-- **Changes.** Take a new instance of a schema that was built of laid out aggregates, each of
whose hashes stands for one size, and let it see any calls. Its changes are the elements that were
written and not cleaned since, each once, in the order of the image. They have the bytes of their
elements, and differ in the paths. Whatever instance a path leads to is dirty if and only if it has
changes. -/
theorem changes_tracked {scope : SchemaScope} {layouts : List StructLayout} {layout : StructLayout}
    {kept after : SchemaTable} {schema : TypeSchema} {sizes : String → Nat}
    (hb : Built scope layouts kept) (h : layout.toSchema scope kept = .ok (schema, after))
    (hl : ∀ other ∈ layout :: layouts, other.LaidOut)
    (hs : ∀ other ∈ layout :: layouts, other.DeterminedBy StructLayout.size sizes)
    (hn : ∀ other ∈ layout :: layouts, other.Throughout StructLayout.WellNamed)
    (calls : List (List PathStep × SiteCall)) :
    ∃ inst pending image elements, (schema.site.run calls).inst = inst ∧
      (schema.tracker.run calls).pending = pending ∧ inst.image? = some image ∧
      elements.Nodup ∧ elements.Perm pending ∧
      List.Forall₂ (inst.Lists image) elements inst.dirtyFields ∧
      (inst.dirtyFields.Pairwise fun change later => change.offset < later.offset) ∧
      (inst.dirtyFields.map DirtyField.path).Nodup ∧
      ∀ path child, inst.descend path = .ok child →
        (child.isDirty = true ↔ child.dirtyFields ≠ []) := by
  obtain ⟨hregular, -⟩ := regular_of_toSchema hb h hl hs
  have horder := hregular.inOrder (TypeSchema.filled_of_toSchema hb h hl)
  have hapart : ∀ other ∈ layout :: layouts, other.Throughout StructLayout.NamesApart :=
    fun other hm => (hn other hm).mono fun _ hw => hw.apart
  obtain ⟨hfirst, hrest⟩ := List.forall_mem_cons.1 hapart
  obtain ⟨hfirst', hrest'⟩ := List.forall_mem_cons.1 hn
  obtain ⟨⟨hnames, hk⟩, -⟩ := toSchema_induction (fieldsApart_step scope) hfirst
    (hb.induction (fieldsApart_step scope) hrest) h
  obtain ⟨hnamed, -⟩ := toSchema_induction (fieldsNamed_step scope) hfirst'
    (hb.induction (fieldsNamed_step scope) hrest') h
  have hexact := (Tracker.exact_new hk).run calls
  have hsite : (schema.tracker.run calls).site = schema.site.run calls :=
    schema.tracker.site_run calls
  obtain ⟨hsound, hpending⟩ := hexact
  rw [hsite] at hsound hpending
  generalize (schema.tracker.run calls).pending = pending at hpending
  obtain ⟨typed, flagged, hschema⟩ := hsound
  generalize (schema.site.run calls).inst = inst at typed flagged hschema hpending
  subst hschema
  obtain ⟨image, hi, hshows⟩ := shows_image? typed hregular
  obtain ⟨elements, hnodup, hmem, hlists, hpaths⟩ :=
    StructInstance.lists_dirtyFields hk hnames hnamed horder typed flagged hshows
  refine ⟨inst, pending, image, elements, rfl, rfl, hi, hnodup, ?_, hlists,
    StructInstance.ascending_dirtyFields typed flagged horder, hpaths, ?_⟩
  · refine (List.perm_ext_iff_of_nodup hnodup hpending.nodup).2 fun element => ?_
    rw [hmem, hpending.mem_iff]
  · intro path child hd
    obtain ⟨htyped, hflagged⟩ := StructInstance.sound_descend typed flagged hd
    exact StructInstance.isDirty_iff htyped hflagged

/-! ## A room -/

theorem StructLayout.wellNamed_of_layOut {decl : TypeDeclaration} {contentHash : String}
    {nested : LayoutTable} {layout : StructLayout} (h : decl.layOut contentHash nested = .ok layout)
    (hn : (decl.fields.map FieldDeclaration.name).Nodup ∧
      ∀ name ∈ decl.fields.map FieldDeclaration.name, IsIdentifier name) : layout.WellNamed where
  apart := by
    rw [NamesApart, names_layOut h]
    exact hn.1
  identifiers := by
    rw [names_layOut h]
    exact hn.2

/-- A map is bound, both lamps are placed, the second one twice, and the first one is cleaned. -/
def roomWrites : List (List PathStep × SiteCall) :=
  [([], .on (.setHandle "plan" 0 ⟨7⟩)),
    ([⟨"lamps", some 0⟩], .on (.set "position" none placeValue)),
    ([⟨"lamps", some 1⟩], .on (.set "position" none placeValue)),
    ([⟨"lamps", some 1⟩], .on (.set "position" none placeValue)), ([⟨"lamps", some 0⟩], .setClean)]

theorem changes_tracked_room :
    ∃ layout schema after inst pending image elements,
      roomDeclaration.layOut "room" lampTable = .ok layout ∧ layout.LaidOut ∧
      layout.DeterminedBy StructLayout.size roomSizes ∧
      layout.Throughout StructLayout.WellNamed ∧
      layout.toSchema roomScope [] = .ok (schema, after) ∧
      (schema.site.run roomWrites).inst = inst ∧
      (schema.tracker.run roomWrites).pending = pending ∧ pending.length = 2 ∧
      inst.image? = some image ∧ elements.Perm pending ∧
      List.Forall₂ (inst.Lists image) elements inst.dirtyFields := by
  have hmade : (roomDeclaration.layOut "room" lampTable).toOption.any (fun layout =>
      layout.size == roomSizes "room" && (layout.toSchema roomScope []).toOption.any fun made =>
        (made.1.tracker.run roomWrites).pending.length == 2) = true := by
    decide +kernel
  obtain ⟨layout, hl, hmade⟩ := exists_ok_of_any hmade
  obtain ⟨hsize, hmade⟩ := Bool.and_eq_true_iff.1 hmade
  obtain ⟨⟨schema, after⟩, hs, hcount⟩ := exists_ok_of_any hmade
  have hlaid : layout.LaidOut := .intro lampTable_laidOut hl
  have hlamp : (lampDeclaration.layOut "lamp" []).toOption.all (·.size == roomSizes "lamp") := by
    decide +kernel
  have hdetermined : layout.DeterminedBy StructLayout.size roomSizes :=
    determinedBy_room (fun below hb => beq_iff_eq.1 (by rwa [hb] at hlamp)) hl (beq_iff_eq.1 hsize)
  have hnamed : layout.DeterminedBy StructLayout.WellNamed fun _ => True :=
    determinedBy_room (fun below hb => eq_true (StructLayout.wellNamed_of_layOut hb (by decide))) hl
      (eq_true (StructLayout.wellNamed_of_layOut hl (by decide)))
  have hnamed : layout.Throughout StructLayout.WellNamed := hnamed.mono fun _ => of_eq_true
  obtain ⟨inst, pending, image, elements, hinst, hpending, hi, -, hperm, hlists, -⟩ :=
    changes_tracked .none hs (by simpa using hlaid) (by simpa using hdetermined)
      (by simpa using hnamed) roomWrites
  have hlength : pending.length = 2 := by
    rw [← hpending]
    exact beq_iff_eq.1 hcount
  exact ⟨layout, schema, after, inst, pending, image, elements, hl, hlaid, hdetermined, hnamed, hs,
    hinst, hpending, hlength, hi, hperm, hlists⟩

/-! ## Two elements with one offset -/

/-- Sets the last element of `narrow`, and then `tail`. -/
def sceneWrites : List (List PathStep × SiteCall) :=
  [([⟨"narrow", none⟩, ⟨"y", none⟩], .on (.set "b" none onesValue)),
    ([], .on (.set "tail" none onesValue))]

/-- Names are identifiers and differ on every level if they do here and in the nested schemas. -/
theorem TypeSchema.named_intro {schema : TypeSchema}
    (hn : (schema.fields.map FieldSchema.name).Nodup ∧
      ∀ field ∈ schema.fields, IsIdentifier field.name)
    (hi : ∀ field ∈ schema.fields, ∀ inner, field.kind = .aggregate inner →
      inner.FieldsApart ∧ inner.FieldsNamed) : schema.FieldsApart ∧ schema.FieldsNamed :=
  ⟨.intro hn.1 fun field hm inner hk => (hi field hm inner hk).1,
    .intro hn.2 fun field hm inner hk => (hi field hm inner hk).2⟩

theorem named_blendSchema : blendSchema.FieldsApart ∧ blendSchema.FieldsNamed := by
  have hpair : pairSchema.FieldsApart ∧ pairSchema.FieldsNamed :=
    TypeSchema.named_intro (by decide) (by simp [pairSchema, quadField])
  have hwide : wideSchema.FieldsApart ∧ wideSchema.FieldsNamed :=
    TypeSchema.named_intro (by decide) (by simpa [wideSchema, nestedField] using hpair)
  exact TypeSchema.named_intro (by decide) (by simpa [blendSchema, nestedField, quadField] using hwide)

/-- The end of `narrow` and the field `tail` of the scene are listed with one offset. -/
theorem changes_share_offset :
    ∃ schema, blendScene?.map (·.schema) = some schema ∧ schema.FieldsApart ∧
      schema.FieldsNamed ∧
      (schema.site.run sceneWrites).inst.dirtyFields.map DirtyField.offset = [48, 48] ∧
      ¬ (schema.site.run sceneWrites).inst.dirtyFields.Pairwise
        fun change later => change.offset < later.offset := by
  have hoffsets : (blendSchema.site.run sceneWrites).inst.dirtyFields.map DirtyField.offset =
      [48, 48] := by decide +kernel
  obtain ⟨hapart, hnamed⟩ := named_blendSchema
  refine ⟨blendSchema, schema_blendScene?, hapart, hnamed, hoffsets, fun horder => ?_⟩
  rw [← List.pairwise_map (f := DirtyField.offset) (R := (· < ·)), hoffsets] at horder
  simp at horder

end UniformLayout
