import Mathlib.Data.List.Forall2
import PeerExchange.Error

namespace PeerExchange

namespace Compiled

variable {α β : Type}

theorem bind_ok {ε : Type} {act : Except ε α} {f : α → Except ε β} {b : β} :
    act >>= f = .ok b ↔ ∃ a, act = .ok a ∧ f a = .ok b := by
  cases act with
  | error cause => exact ⟨nofun, fun ⟨_, failed, _⟩ => nomatch failed⟩
  | ok a =>
    constructor
    · exact fun ran => ⟨a, rfl, ran⟩
    · rintro ⟨_, same, ran⟩
      cases same
      exact ran

theorem forall₂_of_mapM {f : α → Compiled β} {items : List α} {results : List β}
    (ran : items.mapM f = .ok results) : List.Forall₂ (fun a b => f a = .ok b) items results := by
  induction items generalizing results with
  | nil =>
    cases ran
    exact .nil
  | cons first rest ih =>
    rw [List.mapM_cons] at ran
    obtain ⟨one, here, ran⟩ := bind_ok.mp ran
    obtain ⟨more, there, ran⟩ := bind_ok.mp ran
    cases ran
    exact .cons here (ih there)

theorem forM_ok {f : α → Compiled Unit} {items : List α} (ran : items.forM f = .ok ()) :
    ∀ item ∈ items, f item = .ok () := by
  induction items with
  | nil => exact fun _ inside => nomatch inside
  | cons first rest ih =>
    obtain ⟨⟨⟩, here, later⟩ := bind_ok.mp ran
    exact List.forall_mem_cons.mpr ⟨here, ih later⟩

theorem mapM_runs {f : α → Compiled β} {items : List α}
    (each : ∀ item ∈ items, ∃ result, f item = .ok result) : ∃ results, items.mapM f = .ok results := by
  induction items with
  | nil => exact ⟨[], rfl⟩
  | cons first rest ih =>
    obtain ⟨⟨one, here⟩, later⟩ := List.forall_mem_cons.mp each
    obtain ⟨more, there⟩ := ih later
    rw [List.mapM_cons]
    exact ⟨one :: more, bind_ok.mpr ⟨one, here, bind_ok.mpr ⟨more, there, rfl⟩⟩⟩

theorem forM_runs {f : α → Compiled Unit} {items : List α} (each : ∀ item ∈ items, f item = .ok ()) :
    items.forM f = .ok () := by
  induction items with
  | nil => rfl
  | cons first rest ih =>
    obtain ⟨here, later⟩ := List.forall_mem_cons.mp each
    exact bind_ok.mpr ⟨(), here, ih later⟩

theorem foldlM_keeps {f : β → α → Compiled β} {Grows : β → β → Prop}
    {Made : β → α → Prop} (refl : ∀ b, Grows b b)
    (trans : ∀ {a b c}, Grows a b → Grows b c → Grows a c)
    (kept : ∀ {b c a}, Grows b c → Made b a → Made c a)
    (step : ∀ {b c a}, f b a = .ok c → Grows b c ∧ Made c a) {items : List α} {b c : β}
    (ran : items.foldlM f b = .ok c) : Grows b c ∧ ∀ a ∈ items, Made c a := by
  induction items generalizing b with
  | nil =>
    cases ran
    exact ⟨refl _, fun _ inside => nomatch inside⟩
  | cons a rest ih =>
    rw [List.foldlM_cons] at ran
    obtain ⟨middle, here, later⟩ := bind_ok.mp ran
    obtain ⟨grown, made⟩ := step here
    obtain ⟨further, others⟩ := ih later
    exact ⟨trans grown further, List.forall_mem_cons.mpr ⟨kept further made, others⟩⟩

theorem forall₂_source {R : α → β → Prop} {items : List α} {results : List β} {b : β}
    (each : List.Forall₂ R items results) (member : b ∈ results) : ∃ a ∈ items, R a b := by
  induction each with
  | nil => cases member
  | cons here _ ih =>
    rcases List.mem_cons.mp member with rfl | later
    · exact ⟨_, List.mem_cons_self, here⟩
    · obtain ⟨a, inside, related⟩ := ih later
      exact ⟨a, List.mem_cons_of_mem _ inside, related⟩

theorem forall₂_result {R : α → β → Prop} {items : List α} {results : List β} {a : α}
    (each : List.Forall₂ R items results) (member : a ∈ items) : ∃ b ∈ results, R a b := by
  induction each with
  | nil => cases member
  | cons here _ ih =>
    rcases List.mem_cons.mp member with rfl | later
    · exact ⟨_, List.mem_cons_self, here⟩
    · obtain ⟨b, inside, related⟩ := ih later
      exact ⟨b, List.mem_cons_of_mem _ inside, related⟩

end Compiled

end PeerExchange
