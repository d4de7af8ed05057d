import UniformLayout.Proofs.Instance.Sockets

/-!
# Handles stay bound to their units

A `Binder` is a set of free uniforms with the table that its handles are bound in, and what was stored
so far. Every call keeps it `Valid`: each leaf has its unit, holds what was stored in it last, and the
table has this handle at the leaf's unit.

* `Binder.Valid.perform`, `Binder.Valid.run`: one call, and any number of calls.

Main statements: `binder_in_order` and `shade_shares_unit`.
-/

namespace UniformLayout

/-- An instance with the table that its handles are bound in, and the handles that were stored, the
last one first, by the positions of their sockets. -/
structure Binder where
  inst : StructInstance
  table : HandleTable
  stored : List (Nat × TextureHandle)

/-- A new instance of the schema. -/
def TypeSchema.binder (schema : TypeSchema) (table : HandleTable) : Binder where
  inst := schema.instantiate
  table := table
  stored := []

namespace Binder

/-- Makes a call on the instance that a path leads to. One that is refused changes nothing. -/
def perform (binder : Binder) (call : List PathStep × InstanceCall) : Binder :=
  match binder.inst.updateAt (call.2.apply binder.table) call.1 with
  | .ok (inst, table) =>
    { inst, table,
      stored := (call.2.stored? binder.inst.schema call.1).toList ++ binder.stored }
  | .error _ => binder

def run (binder : Binder) (calls : List (List PathStep × InstanceCall)) : Binder :=
  calls.foldl perform binder

/-- The sockets have the units of the leaves and what was stored in them last, and so has the table at
these units. Where nothing was stored, the table is as it was before. -/
structure Valid (schema : TypeSchema) (before : HandleTable) (binder : Binder) : Prop where
  typed : binder.inst.Typed
  schema_eq : binder.inst.schema = schema
  units : binder.inst.sockets.map Socket.unit = schema.leafUnits.map some
  last : ∀ (position : Nat) (socket : Socket), binder.inst.sockets[position]? = some socket →
    socket.handle = binder.stored.lookup position
  bound : ∀ socket ∈ binder.inst.sockets, ∀ unit ∈ socket.unit,
    binder.table.get? unit = (socket.handle.map (socket.target, ·)).or (before.get? unit)
  rest : ∀ unit ∉ schema.leafUnits, binder.table.get? unit = before.get? unit

variable {schema : TypeSchema} {max : Nat} {before : HandleTable} {binder : Binder}

theorem valid_new (hk : schema.Kinded) (hu : schema.HasOwnUnits max) (table : HandleTable) :
    (schema.binder table).Valid schema table := by
  have hnew := numbered_instantiate hk hu
  refine ⟨hk.typed_instantiate, schema.schema_instantiate, hnew.units_eq, ?_, ?_, fun _ _ => rfl⟩
  · intro position socket hs
    exact hnew.empty socket (List.mem_of_getElem? hs)
  · intro socket hm unit _
    rw [hnew.empty socket hm]
    rfl

/-- The units of two sockets differ. -/
theorem Valid.unit_inj (h : binder.Valid schema before) (hu : schema.HasOwnUnits max)
    {position other : Nat} {socket twin : Socket}
    (hs : binder.inst.sockets[position]? = some socket)
    (ht : binder.inst.sockets[other]? = some twin) (he : socket.unit = twin.unit) :
    position = other := by
  have hnodup : (binder.inst.sockets.map Socket.unit).Nodup := by
    rw [h.units]
    exact hu.nodup.map fun _ _ he => Option.some.inj he
  have hlt := (List.getElem?_eq_some_iff.1 hs).1
  have hsame : (binder.inst.sockets.map Socket.unit)[position]? =
      (binder.inst.sockets.map Socket.unit)[other]? := by
    rw [List.getElem?_map, List.getElem?_map, hs, ht, Option.map_some, Option.map_some, he]
  exact (List.getElem?_inj (by rwa [List.length_map]) hnodup).1 hsame

/-- A socket has a unit, and it is one of the units of the leaves. -/
theorem Valid.exists_unit (h : binder.Valid schema before) {socket : Socket}
    (hm : socket ∈ binder.inst.sockets) : ∃ unit ∈ schema.leafUnits, socket.unit = some unit := by
  have hunit := List.mem_map_of_mem (f := Socket.unit) hm
  rw [h.units] at hunit
  obtain ⟨unit, hu, he⟩ := List.mem_map.1 hunit
  exact ⟨unit, hu, he.symm⟩

/-- A handle is stored in a socket. The table has it at the unit of the socket, which no other socket
has. -/
theorem Valid.store (h : binder.Valid schema before) (hu : schema.HasOwnUnits max)
    {inst : StructInstance} (ht : inst.Typed) (hs : inst.schema = schema) {position : Nat}
    {socket : Socket} {handle : TextureHandle} (found : binder.inst.sockets[position]? = some socket)
    (hsockets : inst.sockets =
      binder.inst.sockets.set position { socket with handle := some handle }) :
    Valid schema before
      ⟨inst, socket.bind binder.table handle, (position, handle) :: binder.stored⟩ := by
  obtain ⟨unit, hunit, hsome⟩ := h.exists_unit (List.mem_of_getElem? found)
  obtain ⟨hlt, hget⟩ := List.getElem?_eq_some_iff.1 found
  have hkept : binder.inst.sockets.set position socket = binder.inst.sockets := by
    rw [← hget, List.set_getElem_self]
  have hbind : socket.bind binder.table handle = binder.table.put unit socket.target handle := by
    unfold Socket.bind
    rw [hsome]
    rfl
  have hcases : ∀ (other : Nat) (twin : Socket), inst.sockets[other]? = some twin →
      position = other ∧ { socket with handle := some handle } = twin ∨
        position ≠ other ∧ binder.inst.sockets[other]? = some twin := by
    intro other twin htwin
    rw [hsockets, List.getElem?_set] at htwin
    split at htwin
    · exact Or.inl ⟨‹_›, Option.some.inj htwin⟩
    · exact Or.inr ⟨‹_›, htwin⟩
  refine ⟨ht, hs, ?_, fun other twin htwin => ?_, fun twin hm unit' hu' => ?_, fun other hn => ?_⟩
  · rw [hsockets, List.map_set, ← h.units]
    dsimp only
    rw [← List.map_set, hkept]
  · rw [List.lookup_cons]
    rcases hcases other twin htwin with ⟨rfl, rfl⟩ | ⟨hne, htwin⟩
    · rw [beq_self_eq_true]
    · rw [beq_eq_false_iff_ne.2 hne.symm]
      exact h.last other twin htwin
  · obtain ⟨other, htwin⟩ := List.getElem?_of_mem hm
    dsimp only
    rw [hbind, HandleTable.get?_put]
    rcases hcases other twin htwin with ⟨rfl, rfl⟩ | ⟨hne, htwin⟩
    · rw [if_pos (Option.some.inj (hu'.symm.trans hsome))]
      rfl
    · rw [if_neg]
      · exact h.bound twin (List.mem_of_getElem? htwin) unit' hu'
      · rintro rfl
        exact hne (h.unit_inj hu found htwin (hsome.trans hu'.symm))
  · dsimp only
    rw [hbind, HandleTable.get?_put, if_neg]
    · exact h.rest other hn
    · rintro rfl
      exact hn hunit

/-- An accepted call. -/
theorem Valid.follow (h : binder.Valid schema before) (hu : schema.HasOwnUnits max)
    {inst : StructInstance} {table : HandleTable} {stored? : Option (Nat × TextureHandle)}
    (ht : inst.Typed) (hs : inst.schema = schema)
    (hc : Stores binder.inst.sockets binder.table stored? inst.sockets table) :
    Valid schema before ⟨inst, table, stored?.toList ++ binder.stored⟩ := by
  generalize hsockets : inst.sockets = sockets at hc
  cases hc with
  | nothing =>
    refine ⟨ht, hs, ?_, ?_, ?_, h.rest⟩
    · rw [hsockets]
      exact h.units
    · rw [hsockets]
      exact h.last
    · rw [hsockets]
      exact h.bound
  | one found => exact h.store hu ht hs found hsockets

theorem Valid.perform (h : binder.Valid schema before) (hu : schema.HasOwnUnits max)
    (call : List PathStep × InstanceCall) : (binder.perform call).Valid schema before := by
  unfold Binder.perform
  split
  · rename_i inst table hcall
    obtain ⟨ht, hs⟩ := StructInstance.typed_updateAt
      (fun _ _ _ ht hc => (InstanceCall.changes hc).typed ht) h.typed hcall
    exact h.follow hu ht (hs.trans h.schema_eq) (stores_updateAt h.typed hcall)
  · exact h

theorem Valid.run (h : binder.Valid schema before) (hu : schema.HasOwnUnits max)
    (calls : List (List PathStep × InstanceCall)) : (binder.run calls).Valid schema before := by
  unfold Binder.run
  induction calls generalizing binder with
  | nil => exact h
  | cons call rest ih => exact ih (h.perform hu call)

/-- What the accessors say of the handle of an element: it was stored there last, and the table has it
at the element's unit. -/
theorem Valid.accessed (h : binder.Valid schema before) {path : List PathStep}
    {child : StructInstance} {name : String} {element : Nat} {found : Option TextureHandle}
    (hd : binder.inst.descend path = .ok child) (hf : child.handle name element = .ok found) :
    ∃ position unit target, schema.socketIndex? name element path = some position ∧
      schema.leafUnits[position]? = some unit ∧ child.textureUnit name element = .ok (some unit) ∧
      found = binder.stored.lookup position ∧
      binder.table.get? unit = (found.map (target, ·)).or (before.get? unit) := by
  obtain ⟨position, socket, hposition, hsocket, rfl, hunit⟩ :=
    StructInstance.socket_of_handle h.typed hd hf
  have hm := List.mem_of_getElem? hsocket
  obtain ⟨unit, -, hsome⟩ := h.exists_unit hm
  have hleaf := congrArg (·[position]?) h.units
  rw [List.getElem?_map, hsocket, List.getElem?_map, Option.map_some, hsome] at hleaf
  obtain ⟨found, hl, he⟩ := Option.map_eq_some_iff.1 hleaf.symm
  obtain rfl := Option.some.inj he
  rw [h.schema_eq] at hposition
  rw [hsome] at hunit
  exact ⟨position, found, socket.target, hposition, hl, hunit, h.last position socket hsocket,
    h.bound socket hm found hsome⟩

end Binder

/-- **Units.** Take a set of free uniforms with different names whose nested types are plain structs,
and a schema that was built of it from laid out aggregates, where layouts with one content hash have
one number of handles. The units of its leaves are below the maximum and none occurs twice; those of a
field follow each other from the field's first unit on. The expressions that the code of the generated
wrappers is printed from have the same values, leaf by leaf: those that are stored, and those under
which handles are registered. Whatever calls a new instance has seen, its sockets have these units, and
the table has the last handle of each socket at its unit. -/
theorem binder_in_order {scope : SchemaScope} {layouts : List StructLayout} {layout : StructLayout}
    {kept after : SchemaTable} {schema : TypeSchema} {counts : String → Nat}
    (hb : Built scope layouts kept) (h : layout.toSchema scope kept = .ok (schema, after))
    (hl : ∀ other ∈ layout :: layouts, other.LaidOut)
    (hc : ∀ other ∈ layout :: layouts, other.DeterminedBy StructLayout.handleCount counts)
    (hset : schema.isUniformSet = true) (hn : (schema.fields.map FieldSchema.name).Nodup)
    (hs : schema.nestsStructs = true) (table : HandleTable)
    (calls : List (List PathStep × InstanceCall)) :
    schema.leafUnits.Nodup ∧ (∀ unit ∈ schema.leafUnits, unit < scope.maxTextureUnits) ∧
      (∀ field ∈ schema.fields, 0 < field.handleCount → field.unit.isSome = true) ∧
      schema.wrapperLeaves none = schema.leafUnits.map .both ∧
      ∃ binder, (schema.binder table).run calls = binder ∧ binder.Valid schema table ∧
        ∀ path child name element found, binder.inst.descend path = .ok child →
          child.handle name element = .ok found → ∃ position unit target,
            schema.socketIndex? name element path = some position ∧
            schema.leafUnits[position]? = some unit ∧
            child.textureUnit name element = .ok (some unit) ∧
            found = binder.stored.lookup position ∧
            binder.table.get? unit = (found.map (target, ·)).or (table.get? unit) := by
  have hcounted := counted_of_toSchema hb h hl hc
  have hu := hcounted.units hset hn
  refine ⟨hu.nodup, fun unit hm => hu.lt hm, fun field hm hpos => ?_,
    schema.wrapperLeaves_eq (unit_outsideSets_of_toSchema hb h) hs hu, _, rfl, ?_⟩
  · obtain ⟨first, hfirst, -⟩ := hu.given field hm hpos
    exact Option.isSome_iff_exists.2 ⟨first, hfirst⟩
  · have hvalid := (Binder.valid_new hcounted.kinded hu table).run hu calls
    exact ⟨hvalid, fun path child name element found hd hf => hvalid.accessed hd hf⟩

/-! ## A hall with bulbs -/

def bulbDeclaration : TypeDeclaration where
  name := "Bulb"
  kind := .struct
  fields := [{ typeName := "sampler2D", name := "glow" }, { typeName := "float", name := "power" },
    { typeName := "sampler2D", name := "masks", arrayLength := some 2 }]

/-- Free uniforms. The map asks for unit 2, so the bulbs begin behind it. -/
def hallDeclaration : TypeDeclaration where
  name := "HallUniforms"
  kind := .uniformSet
  fields := [{ typeName := "Bulb", name := "bulbs", arrayLength := some 2 },
    { typeName := "float", name := "level" },
    { typeName := "sampler2D", name := "plan", qualifiers := { binding := some 2 } }]

def hallScope : SchemaScope where
  registry := ((({ suffixLength := 4 } : Registry).register bulbDeclaration "bulb").2.register
    hallDeclaration "hall").2
  maxTextureUnits := 32

section

variable {below layout : StructLayout} (hbelow : bulbDeclaration.layOut "bulb" [] = .ok below)
include hbelow

theorem bulbTable_laidOut : LayoutTable.LaidOut [("Bulb", below)] := by
  intro name found hl
  rw [List.lookup_cons] at hl
  split at hl
  · obtain rfl := Option.some.inj hl
    exact .intro (fun _ _ hl => by cases hl) hbelow
  · cases hl

theorem hall_laidOut (made : hallDeclaration.layOut "hall" [("Bulb", below)] = .ok layout) :
    layout.LaidOut :=
  .intro (bulbTable_laidOut hbelow) made

/-- The hall and its bulbs have different hashes. -/
theorem determinedBy_hall {α : Type} {view : StructLayout → α} {known : String → α}
    (hbulb : view below = known "bulb")
    (made : hallDeclaration.layOut "hall" [("Bulb", below)] = .ok layout)
    (hhall : view layout = known "hall") : layout.DeterminedBy view known := by
  refine StructLayout.determinedBy_of_layOut (bulbTable_laidOut hbelow) made hhall
    fun name found hl => ?_
  rw [List.lookup_cons] at hl
  split at hl
  · obtain rfl := Option.some.inj hl
    exact StructLayout.determinedBy_of_layOut (fun _ _ h => by cases h) hbelow hbulb
      fun _ _ h => by cases h
  · cases hl

end

def hallCounts (hash : String) : Nat := if hash = "bulb" then 3 else 7

/-- A mask of the second bulb is set twice, the map once, and a handle is refused. -/
def hallCalls : List (List PathStep × InstanceCall) :=
  [([⟨"bulbs", some 1⟩], .setHandle "masks" 1 ⟨7⟩), ([], .setHandle "plan" 0 ⟨8⟩),
    ([], .setHandle "level" 0 ⟨8⟩), ([⟨"bulbs", some 1⟩], .setHandle "masks" 1 ⟨9⟩)]

theorem binder_in_order_hall :
    ∃ below layout schema after binder, bulbDeclaration.layOut "bulb" [] = .ok below ∧
      hallDeclaration.layOut "hall" [("Bulb", below)] = .ok layout ∧
      layout.LaidOut ∧ layout.DeterminedBy StructLayout.handleCount hallCounts ∧
      layout.toSchema hallScope [] = .ok (schema, after) ∧ schema.isUniformSet = true ∧
      (schema.fields.map FieldSchema.name).Nodup ∧ schema.nestsStructs = true ∧
      schema.leafUnits = [3, 4, 5, 6, 7, 8, 2] ∧
      schema.wrapperLeaves none = [3, 4, 5, 6, 7, 8, 2].map .both ∧
      (schema.binder []).run hallCalls = binder ∧ binder.Valid schema [] ∧
      binder.table = [(2, some .texture2D, ⟨8⟩), (8, some .texture2D, ⟨9⟩)] := by
  have hmade : (bulbDeclaration.layOut "bulb" []).toOption.any (fun below =>
      below.handleCount == hallCounts "bulb" &&
        (hallDeclaration.layOut "hall" [("Bulb", below)]).toOption.any fun layout =>
          layout.handleCount == hallCounts "hall" &&
            (layout.toSchema hallScope []).toOption.any fun made =>
              made.1.isUniformSet && made.1.nestsStructs &&
                made.1.fields.map FieldSchema.name == ["bulbs", "level", "plan"] &&
                made.1.leafUnits == [3, 4, 5, 6, 7, 8, 2] &&
                ((made.1.binder []).run hallCalls).table ==
                  [(2, some .texture2D, ⟨8⟩), (8, some .texture2D, ⟨9⟩)]) = true := by
    decide +kernel
  obtain ⟨below, hbelow, hmade⟩ := exists_ok_of_any hmade
  obtain ⟨hbulb, hmade⟩ := Bool.and_eq_true_iff.1 hmade
  obtain ⟨layout, hlayout, hmade⟩ := exists_ok_of_any hmade
  obtain ⟨hhall, hmade⟩ := Bool.and_eq_true_iff.1 hmade
  obtain ⟨⟨schema, after⟩, hschema, hmade⟩ := exists_ok_of_any hmade
  simp only [Bool.and_eq_true, beq_iff_eq] at hbulb hhall hmade
  obtain ⟨⟨⟨⟨hset, hnests⟩, hnames⟩, hunits⟩, htable⟩ := hmade
  have hlaid := hall_laidOut hbelow hlayout
  have hdetermined : layout.DeterminedBy StructLayout.handleCount hallCounts :=
    determinedBy_hall hbelow hbulb hlayout hhall
  have hnodup : (schema.fields.map FieldSchema.name).Nodup := by
    rw [hnames]
    decide
  obtain ⟨-, -, -, hwrapper, binder, hrun, hvalid, -⟩ := binder_in_order .none hschema
    (by simpa using hlaid) (by simpa using hdetermined) hset hnodup hnests [] hallCalls
  rw [hrun] at htable
  rw [hunits] at hwrapper
  exact ⟨below, layout, schema, after, binder, hbelow, hlayout, hlaid, hdetermined, hschema, hset,
    hnodup, hnests, hunits, hwrapper, hrun, hvalid, htable⟩

/-! ## A unit that two samplers share -/

/-- As in `blendUnit`, `Narrow` has the hash of `Wide`. Its layout has three samplers, and the schema of
`Wide`, which has four, is used for both. -/
def shadeUnit : SourceUnit where
  key := "shade.frag"
  text := "struct sampler3DShadow\x7bsampler2D a,b;\x7d;struct Pair\x7bsampler2D a,b;\x7d;
struct Wide\x7bPair x,y;\x7d;struct Narrow\x7bsampler3DShadow x;Pair y;\x7d;
uniform Narrow n;uniform sampler2D s;"

/-- The compiled free uniforms. -/
def shadeUniforms? : Option EmittedType :=
  (compile {} BindingPool.allocator memorySink shadeUnit freshWork).1.result.toOption.bind
    (·.type? "ShadeUniforms")

/-- The last sampler of `n` and the sampler `s` have the unit 3, and the table has only the handle that
was stored later. -/
theorem shade_shares_unit :
    ∃ emitted, shadeUniforms? = some emitted ∧ emitted.schema.isUniformSet = true ∧
      (emitted.schema.fields.map FieldSchema.name).Nodup ∧ emitted.schema.nestsStructs = true ∧
      emitted.schema.instantiate.sockets.map Socket.unit = [some 0, some 1, some 2, some 3, some 3] ∧
      ((emitted.schema.binder []).run [([⟨"n", none⟩, ⟨"y", none⟩], .setHandle "b" 0 ⟨1⟩),
        ([], .setHandle "s" 0 ⟨2⟩)]).table = [(3, some .texture2D, ⟨2⟩)] := by
  have hchecked : shadeUniforms?.any (fun emitted =>
      emitted.schema.isUniformSet && emitted.schema.nestsStructs &&
        emitted.schema.fields.map FieldSchema.name == ["n", "s"] &&
        emitted.schema.instantiate.sockets.map Socket.unit ==
          [some 0, some 1, some 2, some 3, some 3] &&
        ((emitted.schema.binder []).run [([⟨"n", none⟩, ⟨"y", none⟩], .setHandle "b" 0 ⟨1⟩),
          ([], .setHandle "s" 0 ⟨2⟩)]).table == [(3, some .texture2D, ⟨2⟩)]) = true := by
    decide +kernel
  obtain ⟨emitted, he, hchecked⟩ := (Option.any_eq_true _ _).1 hchecked
  simp only [Bool.and_eq_true, beq_iff_eq] at hchecked
  obtain ⟨⟨⟨⟨hset, hnests⟩, hnames⟩, hunits⟩, htable⟩ := hchecked
  have hnodup : (emitted.schema.fields.map FieldSchema.name).Nodup := by
    rw [hnames]
    decide
  exact ⟨emitted, he, hset, hnodup, hnests, hunits, htable⟩

end UniformLayout
