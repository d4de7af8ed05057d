import Mathlib.Data.List.Forall2
import Mathlib.Data.List.Nodup

/-!
# Lists that correspond

Two lists correspond when their entries do, one by one (`List.Forall₂`). What is known of one of them
can then be said of the other. A list of pairs is searched by its first components.
-/

namespace UniformLayout

theorem forall_of_forall₂ {α β : Type} {R : α → β → Prop} {p : β → Prop} {as : List α}
    {bs : List β} (h : List.Forall₂ R as bs) (hp : ∀ a ∈ as, ∀ b, R a b → p b) :
    ∀ b ∈ bs, p b := by
  induction h with
  | nil => simp
  | cons hab _ ih =>
    refine List.forall_mem_cons.2 ⟨hp _ List.mem_cons_self _ hab, ?_⟩
    exact ih fun a hm => hp a (List.mem_cons_of_mem _ hm)

theorem pairwise_of_forall₂ {α β : Type} {R : α → β → Prop} {p : α → α → Prop} {q : β → β → Prop}
    {as : List α} {bs : List β} (h : List.Forall₂ R as bs) (hp : as.Pairwise p)
    (hpq : ∀ a a' b b', R a b → R a' b' → p a a' → q b b') : bs.Pairwise q := by
  induction h with
  | nil => exact .nil
  | cons hab hrest ih =>
    obtain ⟨hfirst, hothers⟩ := List.pairwise_cons.1 hp
    refine .cons ?_ (ih hothers)
    exact forall_of_forall₂ hrest fun a hm b hr => hpq _ _ _ _ hab hr (hfirst a hm)

theorem map_eq_of_forall₂ {α β γ : Type} {R : α → β → Prop} {f : α → γ} {g : β → γ} {as : List α}
    {bs : List β} (h : List.Forall₂ R as bs) (hfg : ∀ a ∈ as, ∀ b, R a b → g b = f a) :
    bs.map g = as.map f := by
  induction h with
  | nil => rfl
  | cons hab _ ih =>
    rw [List.map_cons, List.map_cons, hfg _ List.mem_cons_self _ hab,
      ih fun a hm => hfg a (List.mem_cons_of_mem _ hm)]

theorem filterMap_eq_of_forall₂ {α β γ : Type} {R : α → β → Prop} {f : α → Option γ}
    {g : β → Option γ} {as : List α} {bs : List β} (h : List.Forall₂ R as bs)
    (hfg : ∀ a ∈ as, ∀ b, R a b → g b = f a) : bs.filterMap g = as.filterMap f := by
  have hmap := congrArg (List.filterMap id) (map_eq_of_forall₂ h hfg)
  rwa [List.filterMap_map, List.filterMap_map] at hmap

/-- What exists for each element exists for the list. -/
theorem exists_forall₂ {α β : Type} {R : α → β → Prop} {as : List α} (h : ∀ a ∈ as, ∃ b, R a b) :
    ∃ bs, List.Forall₂ R as bs := by
  induction as with
  | nil => exact ⟨[], .nil⟩
  | cons a rest ih =>
    obtain ⟨hfirst, hrest⟩ := List.forall_mem_cons.1 h
    obtain ⟨b, hb⟩ := hfirst
    obtain ⟨bs, hbs⟩ := ih hrest
    exact ⟨b :: bs, .cons hb hbs⟩

theorem exists_of_mem_left {α β : Type} {R : α → β → Prop} {as : List α} {bs : List β}
    (h : List.Forall₂ R as bs) {a : α} (hm : a ∈ as) : ∃ b ∈ bs, R a b := by
  induction h with
  | nil => cases hm
  | cons hab _ ih =>
    rcases List.mem_cons.1 hm with rfl | hm
    · exact ⟨_, List.mem_cons_self, hab⟩
    · obtain ⟨b, hb, hr⟩ := ih hm
      exact ⟨b, List.mem_cons_of_mem _ hb, hr⟩

theorem exists_of_mem_right {α β : Type} {R : α → β → Prop} {as : List α} {bs : List β}
    (h : List.Forall₂ R as bs) {b : β} (hm : b ∈ bs) : ∃ a ∈ as, R a b :=
  exists_of_mem_left h.flip hm

theorem forall₂_filterMap {α β : Type} {R : α → β → Prop} {f : α → Option β} {as : List α}
    (h : ∀ a ∈ as, ∃ b, f a = some b ∧ R a b) : List.Forall₂ R as (as.filterMap f) := by
  induction as with
  | nil => exact .nil
  | cons a rest ih =>
    obtain ⟨⟨b, hb, hr⟩, hrest⟩ := List.forall_mem_cons.1 h
    rw [List.filterMap_cons, hb]
    exact .cons hr (ih hrest)

theorem forall₂_of_common {α β γ : Type} {R : α → β → Prop} {S : α → γ → Prop} {T : β → γ → Prop}
    {as : List α} {bs : List β} {cs : List γ} (h : List.Forall₂ R as bs) (k : List.Forall₂ S as cs)
    (ht : ∀ a b c, R a b → S a c → T b c) : List.Forall₂ T bs cs := by
  induction h generalizing cs with
  | nil =>
    cases k
    exact .nil
  | cons hr _ ih =>
    cases k with
    | cons hs hrest => exact .cons (ht _ _ _ hr hs) (ih hrest)

theorem forall₂_of_map_eq {α β γ : Type} {R : α → β → Prop} {f : α → γ} {g : β → γ} {as : List α}
    {bs : List β} (h : as.map f = bs.map g) (hr : ∀ a ∈ as, ∀ b ∈ bs, f a = g b → R a b) :
    List.Forall₂ R as bs := by
  induction as generalizing bs with
  | nil =>
    obtain rfl := List.map_eq_nil_iff.1 h.symm
    exact .nil
  | cons a rest ih =>
    obtain ⟨b, others, rfl, hb, hrest⟩ := List.map_eq_cons_iff.1 h.symm
    refine .cons (hr a List.mem_cons_self b List.mem_cons_self hb.symm) (ih hrest.symm ?_)
    intro x hx y hy
    exact hr x (List.mem_cons_of_mem _ hx) y (List.mem_cons_of_mem _ hy)

/-! ## Lists of pairs -/

/-- A pair is found if all pairs with its key agree with it. -/
theorem lookup_of_mem_of_agree {α : Type} {table : List (String × α)} {key : String} {value : α}
    (hm : (key, value) ∈ table) (ha : ∀ other, (key, other) ∈ table → other = value) :
    table.lookup key = some value := by
  induction table with
  | nil => cases hm
  | cons entry rest ih =>
    obtain ⟨name, first⟩ := entry
    rw [List.lookup_cons]
    split
    · rename_i he
      obtain rfl := beq_iff_eq.1 he
      rw [ha first List.mem_cons_self]
    · rename_i hne
      rcases List.mem_cons.1 hm with he | hm
      · obtain ⟨rfl, -⟩ := Prod.mk.inj he
        rw [beq_self_eq_true] at hne
        cases hne
      · exact ih hm fun other ho => ha other (List.mem_cons_of_mem _ ho)

/-- Entries are found under their keys, as long as no two keys are the same. -/
theorem forall₂_lookup_zip {α β : Type} {key : α → String} {as : List α} {bs : List β}
    (hn : (as.map key).Nodup) (hl : as.length = bs.length) :
    List.Forall₂ (fun a b => ((as.map key).zip bs).lookup (key a) = some b) as bs := by
  have hkeys : (((as.map key).zip bs).map Prod.fst).Nodup := by
    rwa [List.map_fst_zip (Nat.le_of_eq ((List.length_map _).trans hl))]
  refine List.forall₂_iff_zip.2 ⟨hl, fun {a b} hm => ?_⟩
  have hpair : (key a, b) ∈ (as.map key).zip bs := by
    rw [List.zip_map_left]
    exact List.mem_map_of_mem hm
  refine lookup_of_mem_of_agree hpair fun other ho => ?_
  exact (Prod.mk.inj (List.inj_on_of_nodup_map hkeys ho hpair rfl)).2

end UniformLayout
