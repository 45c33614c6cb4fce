import PeerExchange.Cycle

namespace PeerExchange

namespace Run

variable {σ α β : Type}

-- The action gives a result and leaves a state.
def Ends (act : Run σ α) (before : σ) (result : α) (after : σ) : Prop :=
  act.run before = (.ok result, after)

theorem ends_pure {a b : α} {s t : σ} : Ends (pure a : Run σ α) s b t ↔ a = b ∧ s = t := by
  constructor
  · intro ended
    have equal : ((.ok a : Except RunError α), s) = (.ok b, t) := ended
    exact ⟨Except.ok.inj (congrArg Prod.fst equal), congrArg Prod.snd equal⟩
  · rintro ⟨rfl, rfl⟩
    rfl

theorem run_bind (act : Run σ α) (f : α → Run σ β) (s : σ) :
    (act >>= f).run s = match act.run s with
      | (.ok a, t) => (f a).run t
      | (.error cause, t) => (.error cause, t) := by
  change (fun p : Except RunError α × σ => (ExceptT.bindCont f p.1 : StateM σ _) p.2) (act.run s) = _
  rcases act.run s with ⟨result, t⟩
  cases result <;> rfl

theorem discard_eq (act : Run σ α) : (discard act : Run σ Unit) = act >>= fun _ => pure () := by
  rw [← map_eq_pure_bind]
  rfl

theorem run_discard_bind (act : Run σ α) (f : Unit → Run σ β) (s : σ) :
    (discard act >>= f).run s = match act.run s with
      | (.ok _, t) => (f ()).run t
      | (.error cause, t) => (.error cause, t) := by
  rw [discard_eq, bind_assoc, run_bind]
  rfl

theorem ends_bind {act : Run σ α} {f : α → Run σ β} {s u : σ} {b : β} :
    Ends (act >>= f) s b u ↔ ∃ a t, Ends act s a t ∧ Ends (f a) t b u := by
  unfold Ends
  rw [run_bind]
  constructor
  · intro ended
    match first : act.run s with
    | (.ok a, t) =>
      rw [first] at ended
      exact ⟨a, t, rfl, ended⟩
    | (.error cause, t) =>
      rw [first] at ended
      cases congrArg Prod.fst ended
  · rintro ⟨a, t, first, second⟩
    rw [first]
    exact second

theorem ends_discard {act : Run σ α} {s t : σ} {u : Unit} :
    Ends (discard act) s u t ↔ ∃ a, Ends act s a t := by
  rw [discard_eq, ends_bind]
  constructor
  · rintro ⟨a, middle, first, second⟩
    obtain ⟨-, rfl⟩ := ends_pure.mp second
    exact ⟨a, first⟩
  · rintro ⟨a, first⟩
    exact ⟨a, t, first, ends_pure.mpr ⟨rfl, rfl⟩⟩

theorem ends_forM_nil {f : α → Run σ Unit} {s t : σ} {u : Unit} :
    Ends (([] : List α).forM f) s u t ↔ s = t :=
  ⟨fun ended => (ends_pure.mp ended).2, fun same => ends_pure.mpr ⟨rfl, same⟩⟩

theorem ends_forM_cons {f : α → Run σ Unit} {first : α} {rest : List α} {s t : σ} {u : Unit} :
    Ends ((first :: rest).forM f) s u t ↔
      ∃ middle, Ends (f first) s () middle ∧ Ends (rest.forM f) middle u t := by
  change Ends (f first >>= fun _ => rest.forM f) s u t ↔ _
  rw [ends_bind]
  constructor
  · rintro ⟨_, middle, one, more⟩
    exact ⟨middle, one, more⟩
  · rintro ⟨middle, one, more⟩
    exact ⟨(), middle, one, more⟩

def OnlyDiverges (act : Run σ α) : Prop :=
  ∀ s cause t, act.run s = (.error cause, t) → ∃ stratum rounds, cause = .diverged stratum rounds

theorem onlyDiverges_pure (a : α) : OnlyDiverges (pure a : Run σ α) := by
  intro s cause t failed
  cases congrArg Prod.fst failed

theorem onlyDiverges_bind {act : Run σ α} {f : α → Run σ β} (first : OnlyDiverges act)
    (second : ∀ a, OnlyDiverges (f a)) : OnlyDiverges (act >>= f) := by
  intro s cause t failed
  rw [run_bind] at failed
  match outcome : act.run s with
  | (.ok a, middle) =>
    rw [outcome] at failed
    exact second a middle cause t failed
  | (.error early, middle) =>
    rw [outcome] at failed
    cases congrArg Prod.fst failed
    exact first s _ middle outcome

theorem onlyDiverges_discard {act : Run σ α} (inside : OnlyDiverges act) :
    OnlyDiverges (discard act) := by
  have shape : (discard act : Run σ Unit) = act >>= fun _ => pure () := by
    rw [← map_eq_pure_bind]; rfl
  rw [shape]
  exact onlyDiverges_bind inside fun _ => onlyDiverges_pure _

theorem onlyDiverges_forM {f : α → Run σ Unit} (each : ∀ a, OnlyDiverges (f a)) (items : List α) :
    OnlyDiverges (items.forM f) := by
  induction items with
  | nil => exact onlyDiverges_pure _
  | cons first rest ih => exact onlyDiverges_bind (each first) fun _ => ih

def Finishes (act : Run σ α) : Prop := ∀ s, ∃ a t, Ends act s a t

theorem finishes_bind {act : Run σ α} {f : α → Run σ β} (first : Finishes act)
    (second : ∀ a, Finishes (f a)) : Finishes (act >>= f) := by
  intro s
  obtain ⟨a, t, ended⟩ := first s
  obtain ⟨b, u, rest⟩ := second a t
  exact ⟨b, u, ends_bind.mpr ⟨a, t, ended, rest⟩⟩

theorem finishes_discard {act : Run σ α} (inside : Finishes act) : Finishes (discard act) := by
  intro s
  obtain ⟨a, t, ended⟩ := inside s
  exact ⟨(), t, ends_discard.mpr ⟨a, ended⟩⟩

theorem finishes_forM {f : α → Run σ Unit} {items : List α} (each : ∀ a ∈ items, Finishes (f a)) :
    Finishes (items.forM f) := by
  induction items with
  | nil => exact fun s => ⟨(), s, rfl⟩
  | cons first rest ih =>
    exact finishes_bind (each first List.mem_cons_self) fun _ =>
      ih fun a member => each a (List.mem_cons_of_mem _ member)

def Keeps (P : σ → Prop) (act : Run σ α) (Q : α → Prop) : Prop :=
  ∀ s, P s → P (act.run s).2 ∧ ∀ a, (act.run s).1 = .ok a → Q a

abbrev Preserves (P : σ → Prop) (act : Run σ α) : Prop := Keeps P act fun _ => True

section Keeps

variable {P : σ → Prop} {Q : α → Prop} {R : β → Prop}

theorem keeps_pure {a : α} (told : Q a) : Keeps P (pure a) Q := by
  intro s had
  refine ⟨had, fun b same => ?_⟩
  cases same
  exact told

theorem keeps_throw (cause : RunError) : Keeps P (throw cause) Q := fun _ had => ⟨had, nofun⟩

theorem keeps_get : Keeps P (get : Run σ σ) P := by
  intro s had
  refine ⟨had, fun t same => ?_⟩
  cases same
  exact had

theorem preserves_set {t : σ} (has : P t) : Preserves P (set t : Run σ PUnit) :=
  fun _ _ => ⟨has, fun _ _ => trivial⟩

theorem preserves_modify {f : σ → σ} (each : ∀ s, P s → P (f s)) : Preserves P (modify f : Run σ PUnit) :=
  fun s had => ⟨each s had, fun _ _ => trivial⟩

theorem Keeps.within {τ : Type} {get : τ → σ} {set : σ → τ → τ} {act : Run σ α} {P : τ → Prop}
    {P' : σ → Prop} (keeps : Keeps P' act Q) (reads : ∀ t, P t → P' (get t))
    (writes : ∀ t s, P t → P' s → P (set s t)) : Keeps P (act.within get set) Q := by
  intro t had
  obtain ⟨after, told⟩ := keeps (get t) (reads t had)
  exact ⟨writes t _ had after, told⟩

theorem keeps_compiled (c : Compiled α) : Keeps P (ofCompiled c) fun a => c = .ok a := by
  cases c with
  | ok a => exact keeps_pure rfl
  | error cause => exact keeps_throw _

theorem Keeps.preserves {act : Run σ α} (keeps : Keeps P act Q) : Preserves P act :=
  fun s had => ⟨(keeps s had).1, fun _ _ => trivial⟩

theorem preserves_counted (n : Nat) : Preserves P (counted n) := by
  unfold counted
  split
  · exact keeps_pure trivial
  · exact keeps_throw _

theorem Keeps.bind {act : Run σ α} {f : α → Run σ β} (first : Keeps P act Q)
    (next : ∀ a, Q a → Keeps P (f a) R) : Keeps P (act >>= f) R := by
  intro s had
  obtain ⟨middle, told⟩ := first s had
  rw [run_bind]
  match outcome : act.run s with
  | (.ok a, t) =>
    rw [outcome] at middle told
    exact next a (told a rfl) t middle
  | (.error cause, t) =>
    rw [outcome] at middle
    exact ⟨middle, nofun⟩

theorem Keeps.discard {act : Run σ α} (keeps : Keeps P act Q) : Preserves P (discard act) := by
  rw [discard_eq]
  exact keeps.bind fun _ _ => keeps_pure trivial

theorem preserves_forM {f : α → Run σ Unit} {items : List α} (each : ∀ a ∈ items, Preserves P (f a)) :
    Preserves P (items.forM f) := by
  induction items with
  | nil => exact keeps_pure trivial
  | cons first rest ih =>
    obtain ⟨here, later⟩ := List.forall_mem_cons.mp each
    exact here.bind fun _ _ => ih later

theorem preserves_mapM {f : α → Run σ β} {items : List α} (each : ∀ a ∈ items, Preserves P (f a)) :
    Preserves P (items.mapM f) := by
  induction items with
  | nil => exact keeps_pure trivial
  | cons first rest ih =>
    obtain ⟨here, later⟩ := List.forall_mem_cons.mp each
    rw [List.mapM_cons]
    exact here.bind fun _ _ => (ih later).bind fun _ _ => keeps_pure trivial

end Keeps

end Run

namespace Running

variable {σ : Type}

theorem ends_count {f : Cycle → Cycle} {s t : Running σ} {u : Unit} :
    Run.Ends (count f) s u t ↔ { s with cycle := f s.cycle } = t := by
  constructor
  · intro ended
    exact congrArg Prod.snd (show ((.ok () : Except RunError Unit), { s with cycle := f s.cycle }) =
      (.ok u, t) from ended)
  · rintro rfl
    rfl

theorem onlyDiverges_count (f : Cycle → Cycle) : Run.OnlyDiverges (count f : Run (Running σ) Unit) := by
  intro s cause t failed
  cases congrArg Prod.fst failed

theorem onlyDiverges_untilStable {stratum limit : Nat} {step : Int → Run (Running σ) Nat}
    (inside : ∀ k, Run.OnlyDiverges (step k)) (left : Nat) (k : Int) :
    Run.OnlyDiverges (untilStable stratum limit step left k) := by
  induction left generalizing k with
  | zero =>
    intro s cause t failed
    cases congrArg Prod.fst failed
    exact ⟨stratum, limit, rfl⟩
  | succ left ih =>
    refine Run.onlyDiverges_bind (onlyDiverges_count _) fun _ => Run.onlyDiverges_bind (inside k) ?_
    intro changed
    split
    · exact Run.onlyDiverges_pure _
    · exact ih (k + 1)

section Preserves

variable {P : σ → Prop} {α : Type} {session : Session σ} {c : Compilation} {k : Int}

theorem preserves_inner {act : Run σ α} (preserves : Run.Preserves P act) :
    Run.Preserves (fun t : Running σ => P t.state) (inner act) :=
  preserves.within (fun _ had => had) fun _ _ _ after => after

theorem preserves_count (f : Cycle → Cycle) :
    Run.Preserves (fun t : Running σ => P t.state) (count f) :=
  Run.preserves_modify fun _ had => had

theorem preserves_evaluateAll {ss : List Sql.Statement}
    (each : ∀ s ∈ ss, Run.Preserves P (session.evaluate s (some k))) :
    Run.Preserves (fun t => P t.state) (evaluateAll session k ss) := by
  induction ss with
  | nil => exact Run.keeps_pure trivial
  | cons s rest ih =>
    obtain ⟨here, later⟩ := List.forall_mem_cons.mp each
    exact (preserves_inner here).bind fun _ _ => (preserves_count _).bind fun _ _ =>
      (ih later).bind fun _ _ => Run.keeps_pure trivial

theorem preserves_runGroup {rules : List Rule} (each : ∀ iteration ss,
      iteration = .literal k ∨ iteration = .prepared → c.lowerGroup iteration rules = .ok ss →
        ∀ s ∈ ss, Run.Preserves P (session.evaluate s (some k))) :
    Run.Preserves (fun t => P t.state) (runGroup session c rules k) := by
  refine (Run.keeps_compiled _).bind fun ss lowered => ?_
  have each := each _ ss (by split <;> simp) lowered
  exact (preserves_evaluateAll each).bind fun _ _ => (Run.preserves_counted _).bind fun _ _ =>
    Run.keeps_get.bind fun _ _ => (Run.preserves_counted _).bind fun _ _ =>
      (preserves_count _).bind fun _ _ => Run.keeps_pure trivial

theorem preserves_clearPending {name : String}
    (each : ∀ r kind, c.catalog.relation name = .ok r →
      Run.Preserves P (session.evaluate (.clearTable (r.tableName kind)) none)) :
    Run.Preserves (fun t => P t.state) (clearPending session c name) :=
  (Run.keeps_compiled _).bind fun r found => Run.preserves_forM fun kind _ =>
    (preserves_inner (each r kind found)).discard

end Preserves

-- What every step that changes something keeps holds when the loop ends, before a last step that
-- changes nothing.
theorem untilStable_ends {stratum limit : Nat} {step : Int → Run (Running σ) Nat}
    (holds : Int → σ → Prop)
    (kept : ∀ k s t changed, holds k s.state → Run.Ends (step k) s changed t → changed ≠ 0 →
      holds (k + 1) t.state)
    (left : Nat) (k : Int) {s t : Running σ} (start : holds k s.state)
    (ended : Run.Ends (untilStable stratum limit step left k) s () t) :
    ∃ last before, holds last before.state ∧ Run.Ends (step last) before 0 t := by
  induction left generalizing k s with
  | zero => cases congrArg Prod.fst ended
  | succ left ih =>
    obtain ⟨_, counted, first, rest⟩ := Run.ends_bind.mp ended
    obtain ⟨changed, middle, ran, rest⟩ := Run.ends_bind.mp rest
    have entry : holds k counted.state := by
      rw [← ends_count.mp first]
      exact start
    split at rest
    · rename_i stable
      obtain ⟨-, rfl⟩ := Run.ends_pure.mp rest
      exact ⟨k, counted, entry, by rw [stable] at ran; exact ran⟩
    · rename_i moved
      exact ih (k + 1) (kept k counted middle changed entry ran moved) rest

end Running

theorem Compilation.run_runCycle {σ : Type} (session : Session σ) (c : Compilation) (s : σ) :
    (c.runCycle session).run s = match c.maintenance with
      | none => (.ok {}, s)
      | some m => match ((Running.machine session c).runProgram m).run ⟨s, {}⟩ with
        | (result, t) => (result.map fun _ => t.cycle, t.state) := rfl

namespace Machine

variable {σ : Type}

-- A property of actions that the groups which are admitted have, in the iterations that there can be,
-- and that whatever is put together from actions has with them.
structure Lifts (m : Machine σ) (admits : List Rule → Prop)
    (P : ∀ {α : Type}, Run (Running σ) α → Prop) : Prop where
  pure : ∀ {α : Type} (a : α), P (pure a : Run (Running σ) α)
  bind : ∀ {α β : Type} {act : Run (Running σ) α} {f : α → Run (Running σ) β},
    P act → (∀ a, P (f a)) → P (act >>= f)
  diverged : ∀ stratum, P (throw (.diverged stratum m.limit) : Run (Running σ) Unit)
  count : ∀ f, P (Running.count f : Run (Running σ) Unit)
  group : ∀ rules (k : Int), 0 ≤ k → k ≤ m.limit → admits rules → P (m.runGroup rules k)

namespace Lifts

variable {m : Machine σ} {admits : List Rule → Prop} {P : ∀ {α : Type}, Run (Running σ) α → Prop}

theorem discard {α : Type} {act : Run (Running σ) α} (lifts : m.Lifts admits P) (holds : P act) :
    P (Functor.discard act) := by
  have shape : (Functor.discard act : Run (Running σ) Unit) = act >>= fun _ => Pure.pure () := by
    rw [← map_eq_pure_bind]; rfl
  rw [shape]
  exact lifts.bind holds fun _ => lifts.pure ()

theorem forM {α : Type} {f : α → Run (Running σ) Unit} (lifts : m.Lifts admits P) {items : List α}
    (each : ∀ a ∈ items, P (f a)) : P (items.forM f) := by
  induction items with
  | nil => exact lifts.pure ()
  | cons first rest ih =>
    obtain ⟨here, later⟩ := List.forall_mem_cons.mp each
    exact lifts.bind here fun _ => ih later

theorem first (lifts : m.Lifts admits P) {rules : List Rule} (admitted : admits rules) :
    P (m.runGroup rules 0) :=
  lifts.group rules 0 (Int.le_refl 0) (Int.natCast_nonneg m.limit) admitted

theorem untilStable {step : Int → Run (Running σ) Nat} (lifts : m.Lifts admits P) (stratum left : Nat)
    (start : Int) (each : ∀ k, start ≤ k → k < start + left → P (step k)) :
    P (Running.untilStable stratum m.limit step left start) := by
  induction left generalizing start with
  | zero => exact lifts.diverged stratum
  | succ left ih =>
    have here : P (step start) := each start (Int.le_refl start) (by omega)
    refine lifts.bind (lifts.count _) fun _ => lifts.bind here fun changed => ?_
    split
    · exact lifts.pure ()
    · exact ih (start + 1) fun k later earlier => each k (by omega) (by omega)

theorem runDeletion (lifts : m.Lifts admits P) {s : DeletionStratum} (seed : admits s.seed)
    (iterate : admits s.iterate) (rederive : admits s.rederive) : P (m.runDeletion s) := by
  refine lifts.bind (lifts.discard (lifts.first seed)) fun _ => ?_
  split
  · refine lifts.bind (lifts.untilStable _ _ _ fun k later earlier => ?_) fun _ =>
      lifts.untilStable _ _ _ fun _ _ _ => lifts.first rederive
    exact lifts.group _ k (by omega) (by omega) iterate
  · exact lifts.bind (lifts.discard (lifts.first iterate)) fun _ =>
      lifts.discard (lifts.first rederive)

theorem insertionRound (lifts : m.Lifts admits P) {s : InsertionStratum} (iterate : admits s.iterate)
    (merge : admits s.merge) (k : Int) (later : 0 ≤ k) (earlier : k < m.limit) :
    P (m.insertionRound s k) := by
  refine lifts.bind (lifts.group _ k later (by omega) iterate) fun changed => ?_
  simp only
  split
  · exact lifts.bind (lifts.discard (lifts.group _ _ (by omega) (by omega) merge)) fun _ => lifts.pure _
  · exact lifts.pure _

theorem runInsertion (lifts : m.Lifts admits P) {s : InsertionStratum} (seed : admits s.seed)
    (iterate : admits s.iterate) (merge : admits s.merge) : P (m.runInsertion s) := by
  refine lifts.bind (lifts.discard (lifts.first seed)) fun _ => ?_
  split
  · refine lifts.bind (lifts.discard (lifts.first merge)) fun _ =>
      lifts.untilStable _ _ _ fun k later earlier => ?_
    exact lifts.insertionRound iterate merge k later (by omega)
  · exact lifts.bind (lifts.discard (lifts.first iterate)) fun _ =>
      lifts.discard (lifts.first merge)

theorem runProgram_admitted (lifts : m.Lifts admits P) {program : Maintenance}
    (deletion : ∀ s ∈ program.deletion, admits s.seed ∧ admits s.iterate ∧ admits s.rederive)
    (apply : admits program.apply)
    (insertion : ∀ s ∈ program.insertion, admits s.seed ∧ admits s.iterate ∧ admits s.merge)
    (clear : ∀ name ∈ program.relations, P (m.clearPending name)) : P (m.runProgram program) := by
  refine lifts.bind (lifts.forM fun s member => ?_) fun _ =>
    lifts.bind (lifts.discard (lifts.first apply)) fun _ =>
    lifts.bind (lifts.forM fun s member => ?_) fun _ => lifts.forM clear
  · obtain ⟨seed, iterate, rederive⟩ := deletion s member
    exact lifts.runDeletion seed iterate rederive
  · obtain ⟨seed, iterate, merge⟩ := insertion s member
    exact lifts.runInsertion seed iterate merge

theorem runProgram_rules {admits : Rule → Prop} (lifts : m.Lifts (fun rules => ∀ r ∈ rules, admits r) P)
    {program : Maintenance} (each : ∀ r ∈ program.rules, admits r)
    (clear : ∀ name ∈ program.relations, P (m.clearPending name)) : P (m.runProgram program) := by
  obtain ⟨before, insertion⟩ := List.forall_mem_append.mp each
  obtain ⟨deletion, apply⟩ := List.forall_mem_append.mp before
  refine lifts.runProgram_admitted (fun s member => ?_) apply (fun s member => ?_) clear
  · have own := List.forall_mem_append.mp (List.forall_mem_flatMap.mp deletion s member)
    exact ⟨(List.forall_mem_append.mp own.1).1, (List.forall_mem_append.mp own.1).2, own.2⟩
  · have own := List.forall_mem_append.mp (List.forall_mem_flatMap.mp insertion s member)
    exact ⟨(List.forall_mem_append.mp own.1).1, (List.forall_mem_append.mp own.1).2, own.2⟩

theorem runProgram (lifts : m.Lifts (fun _ => True) P) (clear : ∀ name, P (m.clearPending name))
    (program : Maintenance) : P (m.runProgram program) :=
  lifts.runProgram_admitted (fun _ _ => ⟨trivial, trivial, trivial⟩) trivial
    (fun _ _ => ⟨trivial, trivial, trivial⟩) fun name _ => clear name

end Lifts

end Machine

end PeerExchange
