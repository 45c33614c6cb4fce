import PeerExchange.Document.Catalog
import PeerExchange.Maintenance

namespace PeerExchange

open Json (need? needD? member?)

namespace ColumnRef

def toJson (c : ColumnRef) : Json :=
  .obj [("relation", .str c.relation), ("column", .str c.column)]

def ofJson? (j : Json) : Option ColumnRef := do
  let fields ← j.fields? ["relation", "column"]
  return ⟨← need? fields "relation" Json.str?, ← need? fields "column" Json.str?⟩

end ColumnRef

namespace ColumnKey

def toJson : ColumnKey → Json
  | target relation column => .obj
    [("kind", .str "target"), ("relation", .str relation), ("column", .str column)]
  | source relation column ordinal => .obj
    [("kind", .str "source"), ("relation", .str relation), ("column", .str column),
      ("ordinal", .nat ordinal)]

def ofJson? (j : Json) : Option ColumnKey := do
  let (kind, j) ← j.tagged? .direct "kind" ["target", "source"]
  match kind with
  | "target" =>
    let fields ← j.fields? ["relation", "column"]
    return target (← need? fields "relation" Json.str?) (← need? fields "column" Json.str?)
  | "source" =>
    let fields ← j.fields? ["relation", "column", "ordinal"]
    return source (← need? fields "relation" Json.str?) (← need? fields "column" Json.str?)
      (← need? fields "ordinal" Json.index?)
  | _ => none

end ColumnKey

namespace Contribution

def toJson : Contribution → Json
  | padding => .obj [("kind", .str "padding")]
  | explicitNull => .obj [("kind", .str "original_null")]
  | source sourceColumns targetColumns arg => .obj
    [("kind", .str "source"), ("source_columns", .list ColumnRef.toJson sourceColumns),
      ("target_columns", .list ColumnRef.toJson targetColumns), ("arg", arg.toJson)]

def ofJson? (j : Json) : Option Contribution := do
  let (kind, j) ← j.tagged? .direct "kind" ["padding", "original_null", "source"]
  match kind with
  | "padding" => if j.isBare then some padding else none
  | "original_null" => if j.isBare then some explicitNull else none
  | "source" =>
    let fields ← j.fields? ["source_columns", "target_columns", "arg"]
    return source (← need? fields "source_columns" (Json.list? ColumnRef.ofJson?))
      (← need? fields "target_columns" (Json.list? ColumnRef.ofJson?))
      (← need? fields "arg" (Term.ofJson? .held))
  | _ => none

end Contribution

namespace ProvenanceColumn

def toJson (c : ProvenanceColumn) : Json := .obj
  [("key", c.key.toJson), ("name", .str c.name), ("ty", c.type.toJson),
    ("nullable", .bool c.nullable), ("contributions", .list Contribution.toJson c.contributions)]

def ofJson? (j : Json) : Option ProvenanceColumn := do
  let fields ← j.fields? ["key", "name", "ty", "nullable", "contributions"]
  return ⟨← need? fields "key" ColumnKey.ofJson?, ← need? fields "name" Json.str?,
    ← need? fields "ty" (ColumnType.ofJson? .direct), ← need? fields "nullable" Json.bool?,
    ← need? fields "contributions" (Json.list? Contribution.ofJson?)⟩

end ProvenanceColumn

namespace GroupKind

def toJson : GroupKind → Json
  | single => .str "single"
  | innerJoin => .str "inner_join"
  | outerUnion => .str "outer_union"

def ofJson? (j : Json) : Option GroupKind :=
  match j.name? .direct with
  | some "single" => some single
  | some "inner_join" => some innerJoin
  | some "outer_union" => some outerUnion
  | _ => none

end GroupKind

namespace ProvenanceRelation

def toJson (p : ProvenanceRelation) : Json := .obj
  [("name", .str p.name), ("kind", p.kind.toJson), ("peer", .ofOption .str p.peer),
    ("columns", .list ProvenanceColumn.toJson p.columns), ("rules", .strs p.rules),
    ("trust", p.trust.toJson), ("labeled_nulls", .bool p.labeledNulls)]

def ofJson? (j : Json) : Option ProvenanceRelation := do
  let fields ← j.fields? ["name", "kind", "peer", "columns", "rules", "trust", "labeled_nulls"]
  return ⟨← need? fields "name" Json.str?, ← need? fields "kind" GroupKind.ofJson?,
    ← needD? fields "peer" none (Json.option? Json.str?),
    ← need? fields "columns" (Json.list? ProvenanceColumn.ofJson?),
    ← need? fields "rules" (Json.list? Json.str?), ← need? fields "trust" NameSet.ofJson?,
    ← need? fields "labeled_nulls" Json.bool?⟩

end ProvenanceRelation

namespace OuterJoinView

def toJson (v : OuterJoinView) : Json := .obj
  [("name", .str v.name), ("target", .str v.target), ("members", .strs v.members),
    ("rule", v.rule.toJson)]

def ofJson? (j : Json) : Option OuterJoinView := do
  let fields ← j.fields? ["name", "target", "members", "rule"]
  return ⟨← need? fields "name" Json.str?, ← need? fields "target" Json.str?,
    ← need? fields "members" (Json.list? Json.str?), ← need? fields "rule" Rule.ofJson?⟩

end OuterJoinView

namespace DiscardedAtom

def toJson (d : DiscardedAtom) : Json := .obj [("rule", .str d.rule), ("atom", d.atom.toJson)]

def ofJson? (j : Json) : Option DiscardedAtom := do
  let fields ← j.fields? ["rule", "atom"]
  return ⟨← need? fields "rule" Json.str?, ← need? fields "atom" Atom.ofJson?⟩

end DiscardedAtom

namespace Exchange

def toJson (x : Exchange) : Json := .obj (
  [("local_rules", .list Rule.toJson x.localRules),
    ("source_to_provenance", .list Rule.toJson x.sourceToProvenance),
    ("provenance_to_target", .list Rule.toJson x.provenanceToTarget),
    ("provenance", .list ProvenanceRelation.toJson x.provenance),
    ("edb", x.edb.toJson), ("idb", x.idb.toJson)] ++
    member? (!x.discarded.isEmpty) "discarded" (.list DiscardedAtom.toJson x.discarded) ++
    member? (!x.views.isEmpty) "views" (.list OuterJoinView.toJson x.views))

def ofJson? (j : Json) : Option Exchange := do
  let fields ← j.fields?
    ["local_rules", "source_to_provenance", "provenance_to_target", "provenance", "edb", "idb",
      "discarded", "views"]
  return ⟨← need? fields "local_rules" (Json.list? Rule.ofJson?),
    ← need? fields "source_to_provenance" (Json.list? Rule.ofJson?),
    ← need? fields "provenance_to_target" (Json.list? Rule.ofJson?),
    ← need? fields "provenance" (Json.list? ProvenanceRelation.ofJson?),
    ← need? fields "edb" NameSet.ofJson?, ← need? fields "idb" NameSet.ofJson?,
    ← needD? fields "discarded" [] (Json.list? DiscardedAtom.ofJson?),
    ← needD? fields "views" [] (Json.list? OuterJoinView.ofJson?)⟩

end Exchange

namespace Stratum

def toJson (s : Stratum) : Json :=
  .obj [("relations", .strs s.relations), ("recursive", .bool s.recursive)]

end Stratum

namespace DeletionStratum

def toJson (s : DeletionStratum) : Json := .obj
  [("index", .nat s.index), ("relations", .strs s.relations), ("recursive", .bool s.recursive),
    ("seed", .list Rule.toJson s.seed), ("iterate", .list Rule.toJson s.iterate),
    ("rederive", .list Rule.toJson s.rederive)]

def ofJson? (j : Json) : Option DeletionStratum := do
  let fields ← j.fields? ["index", "relations", "recursive", "seed", "iterate", "rederive"]
  return ⟨← need? fields "index" Json.index?, ← need? fields "relations" (Json.list? Json.str?),
    ← need? fields "recursive" Json.bool?, ← need? fields "seed" (Json.list? Rule.ofJson?),
    ← need? fields "iterate" (Json.list? Rule.ofJson?),
    ← need? fields "rederive" (Json.list? Rule.ofJson?)⟩

end DeletionStratum

namespace InsertionStratum

def toJson (s : InsertionStratum) : Json := .obj
  [("index", .nat s.index), ("relations", .strs s.relations), ("recursive", .bool s.recursive),
    ("seed", .list Rule.toJson s.seed), ("iterate", .list Rule.toJson s.iterate),
    ("merge", .list Rule.toJson s.merge)]

def ofJson? (j : Json) : Option InsertionStratum := do
  let fields ← j.fields? ["index", "relations", "recursive", "seed", "iterate", "merge"]
  return ⟨← need? fields "index" Json.index?, ← need? fields "relations" (Json.list? Json.str?),
    ← need? fields "recursive" Json.bool?, ← need? fields "seed" (Json.list? Rule.ofJson?),
    ← need? fields "iterate" (Json.list? Rule.ofJson?),
    ← need? fields "merge" (Json.list? Rule.ofJson?)⟩

end InsertionStratum

namespace Maintenance

def toJson (m : Maintenance) : Json := .obj
  [("deletion", .list DeletionStratum.toJson m.deletion), ("apply", .list Rule.toJson m.apply),
    ("insertion", .list InsertionStratum.toJson m.insertion),
    ("reset", .list Rule.toJson m.reset), ("relations", .strs m.relations)]

def ofJson? (j : Json) : Option Maintenance := do
  let fields ← j.fields? ["deletion", "apply", "insertion", "reset", "relations"]
  return ⟨← need? fields "deletion" (Json.list? DeletionStratum.ofJson?),
    ← need? fields "apply" (Json.list? Rule.ofJson?),
    ← need? fields "insertion" (Json.list? InsertionStratum.ofJson?),
    ← need? fields "reset" (Json.list? Rule.ofJson?),
    ← need? fields "relations" (Json.list? Json.str?)⟩

end Maintenance

end PeerExchange
