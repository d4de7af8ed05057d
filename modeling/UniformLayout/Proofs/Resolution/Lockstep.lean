import UniformLayout.Proofs.Resolution.Parts

/-!
# One unit over two registries

A unit that declares every aggregate it uses is resolved in the same way over any registry: its waves
and its hashes are the same, since what the registry has generated decides only which of the
declarations get a layout. The same holds of any unit over a registry in which the names that it does
not declare mean what they meant before.

* `resolveWaves_over`: the waves.
* `resolveReferences_over`, `resolve_over_grown`: the names that the unit does not declare.
* `Resolution.Course.handled_eq`: the order in which the declarations are handled.

Main statements: `resolve_over` and `resolve_over_grown`.
-/

namespace UniformLayout

variable {registry another : Registry}

theorem hashes_addAll_over {resolution other : Resolution} (h : other.hashes = resolution.hashes)
    (decls : List TypeDeclaration) :
    (other.addAll another decls).hashes = (resolution.addAll registry decls).hashes := by
  induction decls generalizing resolution other with
  | nil => exact h
  | cons decl rest ih =>
    refine ih ?_
    rw [hashes_addDeclaration, hashes_addDeclaration, h]

theorem isReady_over {resolution other : Resolution} (h : other.hashes = resolution.hashes) :
    other.isReady = resolution.isReady := by
  funext decl
  unfold Resolution.isReady Resolution.knows
  rw [h]

/-- The waves depend on the hashes only. The induction follows the waves. -/
theorem resolveWaves_over {key : String} {resolution other after : Resolution}
    {pending : List TypeDeclaration} (hh : other.hashes = resolution.hashes)
    (hw : other.waves = resolution.waves)
    (h : resolveWaves registry key resolution pending = .ok after) :
    ∃ later, resolveWaves another key other pending = .ok later ∧
      later.hashes = after.hashes ∧ later.waves = after.waves := by
  induction hn : pending.length using Nat.strongRecOn generalizing resolution other pending with
  | _ n ih =>
    subst hn
    rw [resolveWaves] at h
    split at h
    · rename_i hempty
      obtain rfl := Except.ok.inj h
      obtain rfl := List.isEmpty_iff.1 hempty
      exact ⟨other, resolveWaves_nil _ _ _, hh, hw⟩
    · rename_i hempty
      split at h
      · cases h
      · rename_i hready
        have hsame : other.ready pending = resolution.ready pending := by
          unfold Resolution.ready
          rw [isReady_over hh]
        have hblocked : other.blocked pending = resolution.blocked pending := by
          unfold Resolution.blocked
          rw [isReady_over hh]
        have hhashes : (other.addWave another (resolution.ready pending)).hashes =
            (resolution.addWave registry (resolution.ready pending)).hashes :=
          hashes_addAll_over hh _
        have hwaves : (other.addWave another (resolution.ready pending)).waves =
            (resolution.addWave registry (resolution.ready pending)).waves := by
          unfold Resolution.addWave
          dsimp only
          rw [← Resolution.addAll, ← Resolution.addAll, waves_addAll, waves_addAll, hw]
        obtain ⟨later, hl, hafter⟩ := ih _ (blocked_length_lt hready) hhashes hwaves h rfl
        refine ⟨later, ?_, hafter⟩
        rw [resolveWaves, if_neg hempty, dif_neg (by rwa [hsame])]
        dsimp only
        rw [hsame, hblocked]
        exact hl

/-- A unit that declares what it uses is resolved over any registry, if it is over one. -/
theorem resolve_over {key : String} {decls : List TypeDeclaration} (hu : SelfContained decls)
    (another : Registry) {resolution : Resolution}
    (h : (resolve registry key decls).result = .ok resolution) :
    ∃ other, (resolve another key decls).result = .ok other ∧ other.hashes = resolution.hashes ∧
      other.waves = resolution.waves := by
  obtain ⟨distinct, referenced, hd, href, hw⟩ := resolve_eq_ok_iff.1 h
  have hfirst := deduplicate_spec hd
  rw [resolveReferences_of_selfContained hu hfirst key] at href
  obtain rfl := Except.ok.inj href
  obtain ⟨other, ho, hafter⟩ := resolveWaves_over rfl rfl hw
  exact ⟨other, resolve_eq_ok_iff.2
    ⟨distinct, {}, hd, resolveReferences_of_selfContained hu hfirst key, ho⟩, hafter⟩

/-! ## Registries that agree on the other names -/

/-- A fold that succeeds does so with any step that succeeds where its own does. -/
theorem foldlM_eq_ok_of {ε α β : Type} {f g : β → α → Except ε β} {list : List α}
    (hstep : ∀ a ∈ list, ∀ b c, f b a = .ok c → g b a = .ok c) {start last : β}
    (h : list.foldlM f start = .ok last) : list.foldlM g start = .ok last := by
  induction list generalizing start with
  | nil => exact h
  | cons a rest ih =>
    obtain ⟨hfirst, hrest⟩ := List.forall_mem_cons.1 hstep
    rw [List.foldlM_cons] at h ⊢
    obtain ⟨next, hn, h⟩ := bind_eq_ok_iff.1 h
    rw [hfirst _ _ hn]
    exact ih hrest h

section

variable {key : String}
  (hkept : ∀ hash descriptor, registry.descriptorOfHash? hash = some descriptor →
    another.descriptorOfHash? hash = some descriptor)

include hkept

theorem resolveReference_over {name : String} {owner : TypeDeclaration} {before after : Resolution}
    (hname : another.resolveDeclaredIn? name key = registry.resolveDeclaredIn? name key)
    (h : resolveReference registry key owner before name = .ok after) :
    resolveReference another key owner before name = .ok after := by
  unfold resolveReference
  rcases resolveReference_eq_ok h with ⟨hk, rfl⟩ | ⟨hk, identity, descriptor, hi, hd, rfl⟩
  · rw [if_pos hk]
    rfl
  · rw [if_neg hk]
    simp only [hname, hi, Option.bind_some, hkept _ _ hd]
    rfl

theorem resolveReferences_over {decls : List TypeDeclaration}
    (hnames : ∀ name, name ∉ decls.map TypeDeclaration.name →
      another.resolveDeclaredIn? name key = registry.resolveDeclaredIn? name key)
    {resolution : Resolution} (h : resolveReferences registry key decls = .ok resolution) :
    resolveReferences another key decls = .ok resolution := by
  refine foldlM_eq_ok_of (fun reference hm before after ha => ?_) h
  obtain ⟨decl, -, hm⟩ := List.mem_flatMap.1 hm
  obtain ⟨name, hname, rfl⟩ := List.mem_map.1 hm
  refine resolveReference_over hkept (hnames name ?_) ha
  simpa using (List.mem_filter.1 hname).2

/-- A unit is resolved in the same way where the names that it does not declare mean the same. -/
theorem resolve_over_grown {decls : List TypeDeclaration}
    (hnames : ∀ name, declared? decls name = none →
      another.resolveDeclaredIn? name key = registry.resolveDeclaredIn? name key)
    {resolution : Resolution} (h : (resolve registry key decls).result = .ok resolution) :
    ∃ other, (resolve another key decls).result = .ok other ∧ other.hashes = resolution.hashes ∧
      other.waves = resolution.waves := by
  obtain ⟨distinct, referenced, hd, href, hw⟩ := resolve_eq_ok_iff.1 h
  have hfirst := deduplicate_spec hd
  have href' : resolveReferences another key distinct = .ok referenced := by
    refine resolveReferences_over hkept (fun name hn => hnames name ?_) href
    unfold declared?
    rw [← hfirst.find, List.find?_eq_none]
    intro decl hm he
    exact hn (eq_of_beq he ▸ List.mem_map_of_mem hm)
  obtain ⟨other, ho, hafter⟩ := resolveWaves_over rfl rfl hw
  exact ⟨other, resolve_eq_ok_iff.2 ⟨distinct, referenced, hd, href', ho⟩, hafter⟩

end

section

variable {key : String} {decls distinct distinct' handled handled' : List TypeDeclaration}
  {resolution other referenced referenced' : Resolution}

theorem Resolution.Course.mem_handled
    (hc : resolution.Course registry key decls distinct handled referenced)
    {decl : TypeDeclaration} : decl ∈ handled ↔ declared? decls decl.name = some decl :=
  hc.perm.mem_iff.trans hc.first.mem_iff

/-- The declarations that are handled can be told from their names. -/
theorem Resolution.Course.filterMap_names
    (hc : resolution.Course registry key decls distinct handled referenced) :
    (handled.map TypeDeclaration.name).filterMap (declared? decls) = handled := by
  rw [List.filterMap_map]
  refine (List.filterMap_congr fun decl hd => ?_).trans List.filterMap_some
  exact hc.mem_handled.1 hd

/-- With the same waves, declarations are handled in the same order. -/
theorem Resolution.Course.handled_eq
    (hc : resolution.Course registry key decls distinct handled referenced)
    (ho : other.Course another key decls distinct' handled' referenced')
    (hw : other.waves = resolution.waves) : handled' = handled := by
  rw [← ho.filterMap_names, ← hc.filterMap_names, ← ho.waves, ← hc.waves, hw]

end

end UniformLayout
