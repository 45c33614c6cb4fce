import PeerExchange.Exchange.Synthesis
import PeerExchange.Lowering
import PeerExchange.Maintenance
import PeerExchange.Mapping
import PeerExchange.Skolem

namespace PeerExchange

namespace Mapping

def isDistrusted (catalog : Catalog) (trust : TrustPolicy) (m : Rule) : Bool :=
  match m.head?.bind catalog.peerOf? with
  | none => false
  | some peer => (m.body.filterMap catalog.peerOf?).any (trust.distrusts peer)

-- The mappings that do not read from a distrusted peer.
def trusted (catalog : Catalog) (trust : TrustPolicy) : List Rule :=
  catalog.mappings.filter (!isDistrusted catalog trust ·)

def withInverses (config : Config) (mappings : List Rule) : List Rule :=
  if config.bidirectional then mappings ++ mappings.filterMap Rule.inverse? else mappings

-- Negation and optional atoms are for compiled rules only.
def fault? (m : Rule) : Option UnsupportedFault :=
  if m.body.any (·.negated) then some .negation
  else if (m.body ++ m.head).any (·.optional) then some .optionalAtoms
  else none

def checkSupported (m : Rule) : Compiled Unit :=
  match fault? m with
  | some fault => .error (CompileError.within m (.unsupported m.id fault))
  | none => .ok ()

-- A mapping is split where its heads cannot share one provenance relation: each target has its own,
-- some target is virtual, or two heads are of one relation.
def mustSplit (catalog : Catalog) (config : Config) (m : Rule) : Bool :=
  let targets := m.head.filterMap Atom.relation?
  config.provenance = .outerUnion || targets.any catalog.isVirtual || !targets.Nodup

def toRules (catalog : Catalog) (config : Config) (m : Rule) : List Rule :=
  if mustSplit catalog config m then m.skolemize.split else [m.skolemize]

def checkRuleSafety (r : Rule) : Compiled Unit :=
  match r.checkSafety with
  | .ok () => .ok ()
  | .error cause => .error (cause.within r)

def rules (catalog : Catalog) (config : Config) (trust : TrustPolicy) : Compiled (List Rule) := do
  let mappings := withInverses config (trusted catalog trust)
  mappings.forM checkSupported
  let rules := mappings.flatMap (toRules catalog config)
  Unfolding.check catalog rules
  rules.forM checkRuleSafety
  return rules

end Mapping

namespace Build

def run (step : Build.Step) (b : Build) : Compiled Build :=
  match step b with
  | (b, .ok ()) => .ok b
  | (_, .error cause) => .error cause

def ofCatalog (catalog : Catalog) (config : Config) (trust : TrustPolicy) : Compiled Build := do
  let rules ← Mapping.rules catalog config trust
  let b ← run (Synthesis.synthesize config trust rules) { catalog := catalog }
  let (x, composed) := b.exchange.composeVirtual b.catalog {}
  composed
  run Synthesis.addLocals { b with exchange := x.minimize b.catalog }

end Build

structure Compilation where
  declared : Catalog
  catalog : Catalog
  config : Config
  trust : TrustPolicy := {}
  exchange : Option Exchange := none
  maintenance : Option Maintenance := none

namespace Compilation

def ofCatalog (catalog : Catalog) (config : Config) : Compiled Compilation := do
  config.validate
  catalog.validate
  return { declared := catalog, catalog := catalog, config := config }

def exchangeUnder (c : Compilation) (trust : TrustPolicy) : Compiled Compilation := do
  c.config.validate
  c.declared.validate
  let b ← Build.ofCatalog c.declared c.config trust
  return { c with
    catalog := b.catalog
    trust := trust
    exchange := some b.exchange
    maintenance := none }

-- Compiles the maintenance program, and the mappings first where that was not done. When there is
-- no maintenance program, what the mappings gave is kept.
def maintained (c : Compilation) : Compilation × Compiled Unit :=
  match if c.exchange.isSome then .ok c else c.exchangeUnder c.trust with
  | .error cause => (c, .error cause)
  | .ok c =>
    match c.exchange with
    | none => (c, .error (.schema .notCompiled))
    | some x =>
      match Maintenance.build x c.catalog with
      | (catalog, .ok m) => ({ c with catalog := catalog, maintenance := some m }, .ok ())
      | (catalog, .error cause) => ({ c with catalog := catalog }, .error cause)

def ready (c : Compilation) : Compilation × Compiled Unit :=
  if c.maintenance.isSome then (c, .ok ()) else c.maintained

def lowerGroup (c : Compilation) (iteration : Iteration) (rules : List Rule) :
    Compiled (List Sql.Statement) :=
  (Lowering.lowerGroup c.catalog c.config iteration rules).result

def lower (c : Compilation) (iteration : Iteration) (r : Rule) : Compiled (List Sql.Statement) :=
  r.lower c.catalog c.config iteration

def schema (c : Compilation) : Compiled (List Sql.Statement) := do
  let tables := (c.catalog.relations.values.filter Relation.isStored).flatMap Relation.createTables
  let views ← ((c.exchange.map Exchange.views).getD []).mapM fun v => c.lower .prepared v.rule
  return tables ++ views.flatten

end Compilation

structure LabeledGroup where
  label : String
  rules : List Rule

namespace Maintenance

def groups (m : Maintenance) : List LabeledGroup :=
  m.deletion.flatMap (fun s =>
    [⟨"deletion " ++ toString s.index ++ " seed", s.seed⟩,
      ⟨"deletion " ++ toString s.index ++ " iterate", s.iterate⟩,
      ⟨"deletion " ++ toString s.index ++ " rederive", s.rederive⟩]) ++
  [⟨"apply", m.apply⟩] ++
  m.insertion.flatMap (fun s =>
    [⟨"insertion " ++ toString s.index ++ " seed", s.seed⟩,
      ⟨"insertion " ++ toString s.index ++ " iterate", s.iterate⟩,
      ⟨"insertion " ++ toString s.index ++ " merge", s.merge⟩]) ++
  [⟨"reset", m.reset⟩]

end Maintenance

namespace Compilation

-- The statements of every group of the maintenance program that has some, with the iteration as a
-- parameter.
def programSql (c : Compilation) : Compiled (List (String × List Sql.Statement)) := do
  match c.maintenance with
  | none => return []
  | some m =>
    let groups ← m.groups.mapM fun g => do return (g.label, ← c.lowerGroup .prepared g.rules)
    return groups.filter fun (_, statements) => !statements.isEmpty

end Compilation

end PeerExchange
