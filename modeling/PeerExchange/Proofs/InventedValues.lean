import PeerExchange.Proofs.BoundNames
import PeerExchange.Skolem

namespace PeerExchange

namespace Variable

variable {v : Variable} {vs : List Variable}

theorem mem_of_mem_distinct (inside : v ∈ distinct vs) : v ∈ vs := by
  induction vs with
  | nil => cases inside
  | cons w rest ih =>
    rcases List.mem_cons.mp inside with rfl | later
    · exact List.mem_cons_self
    · exact List.mem_cons_of_mem _ (ih (List.mem_of_mem_filter later))

theorem exists_mem_distinct (inside : v ∈ vs) : ∃ w ∈ distinct vs, w.name = v.name := by
  induction vs with
  | nil => cases inside
  | cons first rest ih =>
    by_cases same : v.name = first.name
    · exact ⟨first, List.mem_cons_self, same.symm⟩
    · rcases List.mem_cons.mp inside with rfl | later
      · exact absurd rfl same
      · obtain ⟨w, member, named⟩ := ih later
        refine ⟨w, List.mem_cons_of_mem _ (List.mem_filter.mpr ⟨member, decide_eq_true ?_⟩), named⟩
        exact named ▸ same

theorem nodup_distinct (vs : List Variable) : ((distinct vs).map Variable.name).Nodup := by
  induction vs with
  | nil => exact .nil
  | cons first rest ih =>
    rw [distinct, List.map_cons, List.nodup_cons]
    refine ⟨fun again => ?_, ih.sublist (List.filter_sublist.map _)⟩
    obtain ⟨v, kept, same⟩ := List.mem_map.mp again
    exact of_decide_eq_true (List.mem_filter.mp kept).2 same

end Variable

namespace Rule

variable {r : Rule}

theorem skolemize_keeps {P : Rule → Prop} (holds : P r)
    (kept : ∀ q name, P q → name ∈ r.undefinedNames → P (q.invent r.inventionInputs name)) :
    P r.skolemize := by
  unfold skolemize
  generalize r.inventionInputs = inputs at kept ⊢
  generalize r.undefinedNames = names at kept ⊢
  induction names generalizing r with
  | nil => exact holds
  | cons first rest ih =>
    exact ih (kept r first holds List.mem_cons_self) fun q name held inside =>
      kept q name held (List.mem_cons_of_mem _ inside)

theorem inventions_skolemize : r.skolemize.inventions = r.inventions ++
    r.undefinedNames.map fun name => ⟨name, r.id ++ "_" ++ name, r.inventionInputs⟩ := by
  unfold skolemize
  generalize r.inventionInputs = inputs
  generalize r.undefinedNames = names
  induction names generalizing r with
  | nil => exact (List.append_nil _).symm
  | cons first rest ih =>
    rw [List.foldl_cons, ih, List.map_cons, List.append_cons]
    rfl

theorem nodup_undefinedNames (r : Rule) : r.undefinedNames.Nodup :=
  (Variable.nodup_distinct _).sublist (List.filter_sublist.map _)

theorem outside_of_undefined {name : String} (undefined : name ∈ r.undefinedNames) :
    name ∉ r.bodyNames := by
  obtain ⟨v, kept, rfl⟩ := List.mem_map.mp undefined
  have free := (Bool.and_eq_true_iff.mp (List.mem_filter.mp kept).2).2
  simpa using free

theorem input_of_defined {v : Variable} (inside : v ∈ r.head.flatMap Atom.vars)
    (unmarked : ∀ w ∈ r.head.flatMap Atom.vars, w.skolem = none) (defined : v.name ∉ r.undefinedNames) :
    Term.var v.name ∈ r.inventionInputs := by
  obtain ⟨w, member, same⟩ := Variable.exists_mem_distinct inside
  have bound : r.bodyNames.contains v.name = true := by
    by_contra free
    refine defined (List.mem_map.mpr ⟨w, List.mem_filter.mpr ⟨member, ?_⟩, same⟩)
    rw [unmarked w (Variable.mem_of_mem_distinct member), same, Bool.not_eq_true] at *
    rw [free]
    rfl
  have frontier : v.name ∈ (r.headVariables.map Variable.name).filter r.bodyNames.contains :=
    List.mem_filter.mpr ⟨List.mem_map.mpr ⟨w, member, same⟩, bound⟩
  unfold inventionInputs
  dsimp only
  rw [if_neg fun empty => List.ne_nil_of_mem frontier (List.isEmpty_iff.mp empty)]
  exact List.mem_map_of_mem frontier

theorem bodyNames_of_input {t : Term} (input : t ∈ r.inventionInputs) :
    ∃ name ∈ r.bodyNames, t = .var name := by
  obtain ⟨name, inside, rfl⟩ := List.mem_map.mp input
  refine ⟨name, ?_, rfl⟩
  split at inside
  · obtain ⟨a, body, -, named⟩ := mem_joinedNames.mp inside
    exact List.mem_flatMap.mpr ⟨a, body, named⟩
  · exact List.contains_iff_mem.mp (List.mem_filter.mp inside).2

end Rule

end PeerExchange
