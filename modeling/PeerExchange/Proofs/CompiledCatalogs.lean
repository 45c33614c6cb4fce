import PeerExchange.Proofs.DeclaredCatalogs
import PeerExchange.Proofs.Distrust
import PeerExchange.Proofs.InnerJoins

namespace PeerExchange

section Steps

variable {b b' : Build} {trust : TrustPolicy} {config : Config} {catalog : Catalog}

theorem Build.addRelation_ok {r : Relation} (ran : b.addRelation r = (b', .ok ())) :
    b.catalog.relations.contains r.name = false ∧
      b'.catalog.relations = b.catalog.relations.insert r.name r ∧ b'.exchange = b.exchange := by
  unfold Build.addRelation at ran
  split at ran
  · rename_i catalog added
    cases ran
    obtain ⟨new, relations, -⟩ := Catalog.addRelation_ok added
    exact ⟨new, relations, rfl⟩
  · cases congrArg Prod.snd ran

namespace Synthesis

theorem addGroup_ok {g : Group} (ran : addGroup trust g b = (b', .ok ())) :
    ∃ p targets, ProvenanceRelation.addRules b.catalog g.members g.relation = .ok p ∧
      p.targetRules b'.catalog = .ok targets ∧
      b.catalog.relations.contains p.name = false ∧
      b'.catalog.relations = b.catalog.relations.insert p.name p.relation ∧
      b'.exchange = { b.exchange with
        sourceToProvenance := b.exchange.sourceToProvenance ++
          g.members.mapIdx (p.sourceRule b'.catalog trust)
        provenanceToTarget := b.exchange.provenanceToTarget ++ targets
        idb := b.exchange.idb.add p.name
        provenance := b.exchange.provenance ++ [p] } := by
  unfold addGroup at ran
  split at ran
  · cases congrArg Prod.snd ran
  · rename_i p filled
    split at ran
    · cases congrArg Prod.snd ran
    · rename_i middle registered
      obtain ⟨new, relations, same⟩ := Build.addRelation_ok registered
      dsimp only at ran
      split at ran
      · cases congrArg Prod.snd ran
      · rename_i targets made
        cases ran
        exact ⟨p, targets, filled, made, new, relations, by rw [same]⟩

theorem addView_ok {members : List ProvenanceRelation} {target : String}
    (ran : addView members target b = (b', .ok ())) :
    ∃ r, b.catalog.relation target = .ok r ∧
      ((r.materialized = false ∧ b' = b) ∨
        ∃ built, OuterJoinView.build r (members.filter (·.targets.contains target)) = built ∧
          b.catalog.relations.contains built.2.name = false ∧
          b'.catalog.relations = b.catalog.relations.insert built.2.name built.2 ∧
          b'.exchange = { b.exchange with views := b.exchange.views ++ [built.1] }) := by
  unfold addView at ran
  split at ran
  · cases congrArg Prod.snd ran
  · rename_i r known
    refine ⟨r, known, ?_⟩
    split at ran
    · dsimp only at ran
      split at ran
      · cases congrArg Prod.snd ran
      · rename_i middle registered
        obtain ⟨new, relations, same⟩ := Build.addRelation_ok registered
        cases ran
        refine .inr ⟨_, rfl, new, relations, ?_⟩
        rw [← same]
    · rename_i virtual
      cases ran
      exact .inl ⟨by simpa using virtual, rfl⟩

def localRule (r : Relation) : Rule :=
  let args := (List.range r.arity).map fun i => Term.var ("x" ++ toString i)
  Rule.ofHead (r.name ++ "_local") (.ofRelation r.name args) [.ofRelation r.localName args]

theorem addLocal_ok {r : Relation} (ran : addLocal r b = (b', .ok ())) :
    b.catalog.relations.contains r.localName = false ∧
      b'.catalog.relations = b.catalog.relations.insert r.localName r.localRelation ∧
      b'.exchange = { b.exchange with
        localRules := b.exchange.localRules ++ [localRule r]
        edb := b.exchange.edb.add r.localName
        idb := b.exchange.idb.add r.name } := by
  obtain ⟨new, relations, same⟩ := Build.addRelation_ok ran
  exact ⟨new, relations, same⟩

theorem synthesize_ok {rules : List Rule} (ran : synthesize config trust rules b = (b', .ok ())) :
    ∃ gs grouped, groups b.catalog config.provenance rules = .ok gs ∧
      Build.inOrder (gs.map (addGroup trust)) b = (grouped, .ok ()) ∧
      (b' = grouped ∨
        Build.inOrder ((distinctNames (grouped.exchange.provenance.flatMap
          ProvenanceRelation.targets)).map (addView grouped.exchange.provenance)) grouped =
            (b', .ok ())) := by
  unfold synthesize at ran
  split at ran
  · cases congrArg Prod.snd ran
  · rename_i gs made
    split at ran
    · rename_i grouped added
      refine ⟨gs, grouped, made, added, ?_⟩
      split at ran
      · exact .inr ran
      · cases ran
        exact .inl rfl
    · rename_i failed
      exact absurd ran (failed b')

end Synthesis

namespace Build

theorem ofCatalog_ok (made : Build.ofCatalog catalog config trust = .ok b') :
    ∃ rules b x, Mapping.rules catalog config trust = .ok rules ∧
      Synthesis.synthesize config trust rules { catalog := catalog } = (b, .ok ()) ∧
      b.exchange.composeVirtual b.catalog {} = (x, .ok ()) ∧
      Build.inOrder ((b.catalog.relations.values.filter fun r => r.role = .peer && r.materialized).map
        Synthesis.addLocal) { b with exchange := x.minimize b.catalog } = (b', .ok ()) := by
  obtain ⟨rules, given, made⟩ := Compiled.bind_ok.mp made
  obtain ⟨b, synthesized, made⟩ := Compiled.bind_ok.mp made
  dsimp only at made
  obtain ⟨⟨⟩, composed, made⟩ := Compiled.bind_ok.mp made
  exact ⟨rules, b, _, given, run_ok synthesized, Prod.ext rfl composed, run_ok made⟩

end Build

end Steps

namespace Build

inductive Origin (declared : Catalog) (x : Exchange) : Relation → Prop
  | declared {r : Relation} (found : declared.relations.get? r.name = some r) : Origin declared x r
  | provenance {p : ProvenanceRelation} (member : p ∈ x.provenance) : Origin declared x p.relation
  | view {r : Relation} {v : OuterJoinView} (member : v ∈ x.views) (named : v.name = r.name)
    (role : r.role = .view) (materialized : r.materialized = true) : Origin declared x r
  | localEdits {r : Relation} (found : declared.relations.get? r.name = some r)
    (materialized : r.materialized = true) : Origin declared x r.localRelation

theorem Origin.grown {declared : Catalog} {x y : Exchange} {r : Relation}
    (origin : Origin declared x r) (provenance : x.provenance ⊆ y.provenance)
    (views : x.views ⊆ y.views) : Origin declared y r := by
  cases origin with
  | declared found => exact .declared found
  | provenance member => exact .provenance (provenance member)
  | view member named role materialized => exact .view (views member) named role materialized
  | localEdits found materialized => exact .localEdits found materialized

-- A build keeps what was declared, and every relation that it adds has a reason.
structure Tracks (declared : Catalog) (b : Build) : Prop where
  kept : ∀ name r, declared.relations.get? name = some r → b.catalog.relations.get? name = some r
  origin : ∀ name r, b.catalog.relations.get? name = some r →
    r.name = name ∧ Origin declared b.exchange r
  recorded : ∀ p ∈ b.exchange.provenance, b.catalog.relations.get? p.name = some p.relation
  shown : ∀ v ∈ b.exchange.views, ∃ r, b.catalog.relations.get? v.name = some r ∧ r.role = .view

variable {declared : Catalog} {b b' : Build} {trust : TrustPolicy} {config : Config}

theorem get?_insert_of_found {relations : NameMap Relation} {new r : Relation} {name : String}
    (fresh : relations.contains new.name = false) (found : relations.get? name = some r) :
    (relations.insert new.name new).get? name = some r := by
  rw [NameMap.get?_insert, if_neg]
  · exact found
  · rintro rfl
    rw [NameMap.contains_of_get? found] at fresh
    cases fresh

theorem Tracks.add {new : Relation} (tracks : Tracks declared b)
    (fresh : b.catalog.relations.contains new.name = false)
    (relations : b'.catalog.relations = b.catalog.relations.insert new.name new)
    (origin : Origin declared b'.exchange new)
    (provenance : b.exchange.provenance ⊆ b'.exchange.provenance)
    (views : b.exchange.views ⊆ b'.exchange.views)
    (recorded : ∀ p ∈ b'.exchange.provenance, p ∈ b.exchange.provenance ∨ p.relation = new)
    (shown : ∀ v ∈ b'.exchange.views,
      v ∈ b.exchange.views ∨ (v.name = new.name ∧ new.role = .view)) : Tracks declared b' where
  kept name r found := by
    rw [relations]
    exact get?_insert_of_found fresh (tracks.kept name r found)
  origin name r found := by
    rw [relations, NameMap.get?_insert] at found
    split at found
    · rename_i same
      cases found
      exact ⟨same, origin⟩
    · obtain ⟨named, from_⟩ := tracks.origin name r found
      exact ⟨named, from_.grown provenance views⟩
  recorded p member := by
    rw [relations]
    rcases recorded p member with old | rfl
    · exact get?_insert_of_found fresh (tracks.recorded p old)
    · exact (NameMap.get?_insert ..).trans (if_pos rfl)
  shown v member := by
    rw [relations]
    rcases shown v member with old | ⟨named, role⟩
    · obtain ⟨r, found, role⟩ := tracks.shown v old
      exact ⟨r, get?_insert_of_found fresh found, role⟩
    · exact ⟨new, (NameMap.get?_insert ..).trans (if_pos named.symm), role⟩

theorem Tracks.start (own : declared.IsDeclared) : Tracks declared { catalog := declared } where
  kept _ _ found := found
  origin name r found := by
    obtain ⟨named, -⟩ := own.relations name r found
    refine ⟨named, .declared ?_⟩
    rw [named]
    exact found
  recorded := List.forall_mem_nil _
  shown := List.forall_mem_nil _

theorem Tracks.addGroup {g : Synthesis.Group} (tracks : Tracks declared b)
    (ran : Synthesis.addGroup trust g b = (b', .ok ())) : Tracks declared b' := by
  obtain ⟨p, targets, -, -, fresh, relations, exchange⟩ := Synthesis.addGroup_ok ran
  have provenance : b'.exchange.provenance = b.exchange.provenance ++ [p] := by rw [exchange]
  have views : b'.exchange.views = b.exchange.views := by rw [exchange]
  refine Tracks.add tracks fresh relations (.provenance (p := p) ?_) ?_ ?_ ?_ ?_
  · simp [provenance]
  · simp [provenance]
  · simp [views]
  · intro q member
    rw [provenance, List.mem_append, List.mem_singleton] at member
    exact member.imp_right fun same => by rw [same]
  · intro v member
    exact .inl (views ▸ member)

theorem Tracks.addView {members : List ProvenanceRelation} {target : String}
    (tracks : Tracks declared b) (ran : Synthesis.addView members target b = (b', .ok ())) :
    Tracks declared b' := by
  obtain ⟨r, -, ⟨-, rfl⟩ | ⟨built, rfl, fresh, relations, exchange⟩⟩ := Synthesis.addView_ok ran
  · exact tracks
  · have provenance : b'.exchange.provenance = b.exchange.provenance := by rw [exchange]
    have views : b'.exchange.views = b.exchange.views ++
        [(OuterJoinView.build r (members.filter (·.targets.contains target))).1] := by rw [exchange]
    refine tracks.add fresh relations
      (.view (views ▸ List.mem_append_right _ List.mem_cons_self) rfl rfl rfl) ?_ ?_ ?_ ?_
    · simp [provenance]
    · simp [views]
    · exact fun p member => .inl (provenance ▸ member)
    · intro v member
      rw [views, List.mem_append, List.mem_singleton] at member
      exact member.imp_right fun same => by rw [same]; exact ⟨rfl, rfl⟩

theorem Tracks.addLocal {r : Relation} (tracks : Tracks declared b)
    (found : declared.relations.get? r.name = some r) (materialized : r.materialized = true)
    (ran : Synthesis.addLocal r b = (b', .ok ())) : Tracks declared b' := by
  obtain ⟨fresh, relations, exchange⟩ := Synthesis.addLocal_ok ran
  have provenance : b'.exchange.provenance = b.exchange.provenance := by rw [exchange]
  have views : b'.exchange.views = b.exchange.views := by rw [exchange]
  refine tracks.add fresh relations (.localEdits found materialized) ?_ ?_
    ?_ ?_
  · simp [provenance]
  · simp [views]
  · exact fun p member => .inl (provenance ▸ member)
  · exact fun v member => .inl (views ▸ member)

theorem Tracks.synthesize {rules : List Rule} (tracks : Tracks declared b)
    (ran : Synthesis.synthesize config trust rules b = (b', .ok ())) : Tracks declared b' := by
  obtain ⟨gs, grouped, -, added, shown⟩ := Synthesis.synthesize_ok ran
  have first : Tracks declared grouped := by
    refine inOrder_keeps (P := Tracks declared) ?_ tracks added
    intro step listed b b' held stepped
    obtain ⟨g, -, rfl⟩ := List.mem_map.mp listed
    exact held.addGroup stepped
  rcases shown with rfl | shown
  · exact first
  · refine inOrder_keeps (P := Tracks declared) ?_ first shown
    intro step listed b b' held stepped
    obtain ⟨target, -, rfl⟩ := List.mem_map.mp listed
    exact held.addView stepped

theorem Tracks.adjust {x : Exchange} (tracks : Tracks declared b)
    (provenance : x.provenance = b.exchange.provenance) (views : x.views = b.exchange.views) :
    Tracks declared { b with exchange := x } where
  kept := tracks.kept
  origin name r found := by
    obtain ⟨named, from_⟩ := tracks.origin name r found
    exact ⟨named, from_.grown (by simp [provenance]) (by simp [views])⟩
  recorded p member := tracks.recorded p (provenance ▸ member)
  shown v member := tracks.shown v (views ▸ member)

theorem composeVirtual_frame {x y : Exchange} {catalog : Catalog} {fresh : FreshNames}
    {result : Compiled Unit} (ran : x.composeVirtual catalog fresh = (y, result)) :
    y.provenance = x.provenance ∧ y.views = x.views ∧ y.localRules = x.localRules ∧
      y.edb = x.edb ∧ y.idb = x.idb := by
  unfold Exchange.composeVirtual at ran
  dsimp only at ran
  split at ran
  · cases ran
    exact ⟨rfl, rfl, rfl, rfl, rfl⟩
  · split at ran <;> cases ran <;> exact ⟨rfl, rfl, rfl, rfl, rfl⟩

theorem Tracks.declared_of_role {r : Relation} {name : String} (tracks : Tracks declared b)
    (found : b.catalog.relations.get? name = some r) (role : r.role = .peer) :
    declared.relations.get? r.name = some r := by
  obtain ⟨-, origin⟩ := tracks.origin name r found
  cases origin with
  | declared found => exact found
  | provenance member => cases role
  | view member named viewed => rw [viewed] at role; cases role
  | localEdits found materialized => cases role

theorem Tracks.isVirtual_eq (tracks : Tracks declared b) (name : String) :
    b.catalog.isVirtual name = declared.isVirtual name := by
  cases given : declared.relations.get? name with
  | some r => rw [Catalog.isVirtual, Catalog.isVirtual, given, tracks.kept name r given]
  | none =>
    rw [Catalog.isVirtual, Catalog.isVirtual, given]
    cases found : b.catalog.relations.get? name with
    | none => rfl
    | some r =>
      obtain ⟨named, origin⟩ := tracks.origin name r found
      cases origin with
      | declared known =>
        rw [named, given] at known
        cases known
      | provenance member => rfl
      | view member shown role materialized => simp [materialized]
      | localEdits known materialized => simp [Relation.localRelation, materialized]

theorem tracks_ofCatalog (own : declared.IsDeclared)
    (made : Build.ofCatalog declared config trust = .ok b') : Tracks declared b' := by
  obtain ⟨rules, b, x, -, synthesized, composed, added⟩ := ofCatalog_ok made
  have synthesis := (Tracks.start own).synthesize synthesized
  obtain ⟨provenance, views, -⟩ := composeVirtual_frame composed
  have minimized : Tracks declared { b with exchange := x.minimize b.catalog } :=
    synthesis.adjust provenance views
  refine inOrder_keeps (P := Tracks declared) ?_ minimized added
  intro step listed c c' held stepped
  obtain ⟨r, member, rfl⟩ := List.mem_map.mp listed
  obtain ⟨inside, peer⟩ := List.mem_filter.mp member
  obtain ⟨name, found⟩ := NameMap.mem_values.mp inside
  rw [Bool.and_eq_true, decide_eq_true_eq] at peer
  exact held.addLocal (synthesis.declared_of_role found peer.1) peer.2 stepped

end Build

namespace Compilation

variable {text : String} {program : Program} {config : Config} {trust : TrustPolicy}
  {c compiled : Compilation}

def compile? (config : Config) (catalog : Catalog) : Option Compilation :=
  match ofCatalog catalog config with
  | .error _ => none
  | .ok c =>
    match c.exchangeUnder {} with
    | .error _ => none
    | .ok compiled => some compiled

theorem compile?_parts {catalog : Catalog} (found : compile? config catalog = some compiled) :
    ∃ c, ofCatalog catalog config = .ok c ∧ c.exchangeUnder {} = .ok compiled := by
  unfold compile? at found
  split at found
  · cases found
  · rename_i c created
    split at found
    · cases found
    · rename_i made
      cases found
      exact ⟨c, created, made⟩

theorem exchangeUnder_ok (made : c.exchangeUnder trust = .ok compiled) :
    ∃ b, Build.ofCatalog c.declared c.config trust = .ok b ∧ compiled.catalog = b.catalog ∧
      compiled.exchange = some b.exchange ∧ compiled.declared = c.declared ∧
      c.declared.validate = .ok () := by
  obtain ⟨-, -, made⟩ := Compiled.bind_ok.mp made
  obtain ⟨⟨⟩, valid, made⟩ := Compiled.bind_ok.mp made
  obtain ⟨b, built, made⟩ := Compiled.bind_ok.mp made
  cases made
  exact ⟨b, built, rfl, rfl, rfl, valid⟩

theorem maintained_made {x : Exchange} {ready : Compilation}
    (exchange : compiled.exchange = some x) (maintained : compiled.maintained = (ready, .ok ())) :
    ∃ catalog m, Maintenance.build x compiled.catalog = (catalog, .ok m) ∧
      ready = { compiled with catalog := catalog, exchange := some x, maintenance := some m } := by
  unfold Compilation.maintained at maintained
  rw [exchange, Option.isSome_some, if_pos rfl] at maintained
  dsimp only at maintained
  rw [exchange] at maintained
  dsimp only at maintained
  split at maintained
  · rename_i catalog m built
    cases maintained
    exact ⟨catalog, m, built, by rw [← exchange]⟩
  · cases congrArg Prod.snd maintained

theorem maintained_ok {x : Exchange} {ready : Compilation} {m : Maintenance}
    (exchange : compiled.exchange = some x) (maintained : compiled.maintained = (ready, .ok ()))
    (found : ready.maintenance = some m) :
    Maintenance.build x compiled.catalog = (ready.catalog, .ok m) := by
  obtain ⟨catalog, m', built, rfl⟩ := maintained_made exchange maintained
  obtain rfl := Option.some.inj found
  exact built

theorem ofCatalog_keeps {catalog : Catalog} (created : ofCatalog catalog config = .ok c) :
    c.declared = catalog ∧ c.config = config := by
  obtain ⟨-, -, created⟩ := Compiled.bind_ok.mp created
  obtain ⟨-, -, created⟩ := Compiled.bind_ok.mp created
  cases created
  exact ⟨rfl, rfl⟩

theorem ofCatalog_declared (parsed : Program.parse text = .ok program)
    (created : ofCatalog program.catalog config = .ok c) : c.declared.IsDeclared := by
  rw [(ofCatalog_keeps created).1]
  exact Program.parse_declared parsed

end Compilation

end PeerExchange
