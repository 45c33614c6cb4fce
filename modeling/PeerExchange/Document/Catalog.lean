import PeerExchange.Catalog
import PeerExchange.Config
import PeerExchange.Document.Rule

namespace PeerExchange

open Json (need? needD? member?)

namespace NameMap

def toJson {α : Type} (encode : α → Json) (m : NameMap α) : Json :=
  .obj (m.entries.map fun (name, value) => (name, encode value))

def ofJson? {α : Type} (decode : Json → Option α) : Json → Option (NameMap α)
  | .obj members => do
    let entries ← members.mapM fun (name, j) => (decode j).map (name, ·)
    return .ofList entries
  | _ => none

end NameMap

namespace NameSet

def toJson (s : NameSet) : Json := .strs s.toList

def ofJson? (j : Json) : Option NameSet := (j.list? Json.str?).map ofNames

end NameSet

namespace Column

def toJson (c : Column) : Json := .obj
  [("name", .str c.name), ("ty", c.type.toJson), ("nullable", .bool c.nullable)]

def ofJson? (j : Json) : Option Column := do
  let fields ← j.fields? ["name", "ty", "nullable"]
  let name ← need? fields "name" Json.str?
  let type ← need? fields "ty" (ColumnType.ofJson? .direct)
  let nullable ← needD? fields "nullable" false Json.bool?
  return ⟨name, type, nullable⟩

end Column

namespace Role

def toJson : Role → Json
  | peer => .str "peer"
  | localEdits => .str "local"
  | provenance => .str "provenance"
  | view => .str "view"

def ofJson? (j : Json) : Option Role :=
  match j.name? .direct with
  | some "peer" => some peer
  | some "local" => some localEdits
  | some "provenance" => some provenance
  | some "view" => some view
  | _ => none

end Role

namespace Relation

def toJson (r : Relation) : Json := .obj
  [("name", .str r.name), ("peer", .ofOption .str r.peer), ("role", r.role.toJson),
    ("columns", .list Column.toJson r.columns), ("key", .list .nat r.key),
    ("labeled_nulls", .bool r.labeledNulls), ("materialized", .bool r.materialized),
    ("stratified", .bool r.stratified)]

def ofJson? (j : Json) : Option Relation := do
  let fields ← j.fields?
    ["name", "peer", "role", "columns", "key", "labeled_nulls", "materialized", "stratified"]
  let name ← need? fields "name" Json.str?
  let peer ← needD? fields "peer" none (Json.option? Json.str?)
  let role ← needD? fields "role" .peer Role.ofJson?
  let columns ← need? fields "columns" (Json.list? Column.ofJson?)
  let key ← needD? fields "key" [] (Json.list? Json.index?)
  let labeledNulls ← needD? fields "labeled_nulls" false Json.bool?
  let materialized ← need? fields "materialized" Json.bool?
  let stratified ← needD? fields "stratified" false Json.bool?
  return ⟨name, peer, role, columns, key, labeledNulls, materialized, stratified⟩

end Relation

namespace Peer

def toJson (p : Peer) : Json := .obj [("name", .str p.name), ("relations", .strs p.relations)]

def ofJson? (j : Json) : Option Peer := do
  let fields ← j.fields? ["name", "relations"]
  let name ← need? fields "name" Json.str?
  let relations ← need? fields "relations" (Json.list? Json.str?)
  return ⟨name, relations⟩

end Peer

namespace Catalog

def toJson (c : Catalog) : Json := .obj
  [("peers", .list Peer.toJson c.peers), ("relations", c.relations.toJson Relation.toJson),
    ("mappings", .list Rule.toJson c.mappings)]

def ofJson? (j : Json) : Option Catalog := do
  let fields ← j.fields? ["peers", "relations", "mappings"]
  let peers ← need? fields "peers" (Json.list? Peer.ofJson?)
  let relations ← need? fields "relations" (NameMap.ofJson? Relation.ofJson?)
  let mappings ← need? fields "mappings" (Json.list? Rule.ofJson?)
  return ⟨peers, relations, mappings⟩

end Catalog

namespace ProvenanceMode

def toJson : ProvenanceMode → Json
  | union => .str "union"
  | outerUnion => .str "outer_union"
  | outerJoin => .str "outer_join"

def ofJson? (j : Json) : Option ProvenanceMode :=
  match j.name? .direct with
  | some "union" => some union
  | some "outer_union" => some outerUnion
  | some "outer_join" => some outerJoin
  | _ => none

end ProvenanceMode

namespace Config

def toJson (c : Config) : Json := .obj
  [("provenance", c.provenance.toJson), ("bidirectional", .bool c.bidirectional),
    ("set_semantics", .bool c.setSemantics), ("inline_iteration", .bool c.inlineIteration),
    ("merge_statements", .bool c.mergeStatements), ("merge_limit", .nat c.mergeLimit),
    ("max_iterations", .nat c.maxIterations), ("skolem_width", .nat c.skolemWidth)]

def ofJson? (j : Json) : Option Config := do
  let fields ← j.fields?
    ["provenance", "bidirectional", "set_semantics", "inline_iteration", "merge_statements",
      "merge_limit", "max_iterations", "skolem_width"]
  let usual : Config := {}
  let provenance ← needD? fields "provenance" usual.provenance ProvenanceMode.ofJson?
  let bidirectional ← needD? fields "bidirectional" usual.bidirectional Json.bool?
  let setSemantics ← needD? fields "set_semantics" usual.setSemantics Json.bool?
  let inlineIteration ← needD? fields "inline_iteration" usual.inlineIteration Json.bool?
  let mergeStatements ← needD? fields "merge_statements" usual.mergeStatements Json.bool?
  let mergeLimit ← needD? fields "merge_limit" usual.mergeLimit Json.index?
  let maxIterations ← needD? fields "max_iterations" usual.maxIterations Json.index?
  let skolemWidth ← needD? fields "skolem_width" usual.skolemWidth Json.index?
  return ⟨provenance, bidirectional, setSemantics, inlineIteration, mergeStatements, mergeLimit,
    maxIterations, skolemWidth⟩

end Config

end PeerExchange
