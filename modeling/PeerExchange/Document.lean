import PeerExchange.Document.Exchange
import PeerExchange.Json.Parser
import PeerExchange.Json.Printer

namespace PeerExchange

open Json (need? needD? member?)

structure Document where
  catalog : Catalog
  exchange : Option Exchange := none
  maintenance : Option Maintenance := none
deriving DecidableEq

namespace Document

def toJson (d : Document) : Json := .obj (
  [("catalog", d.catalog.toJson)] ++
    member? d.exchange.isSome "translation" (.ofOption Exchange.toJson d.exchange) ++
    member? d.maintenance.isSome "delta" (.ofOption Maintenance.toJson d.maintenance))

def ofJson? (j : Json) : Option Document := do
  let fields ← j.fields? ["catalog", "translation", "delta"]
  return ⟨← need? fields "catalog" Catalog.ofJson?,
    ← needD? fields "translation" none (Json.option? Exchange.ofJson?),
    ← needD? fields "delta" none (Json.option? Maintenance.ofJson?)⟩

def toText (d : Document) : String := d.toJson.pretty

def ofText? (text : String) : Option Document := (Json.parse? text).bind ofJson?

end Document

namespace Rule

def toText (r : Rule) : String := r.toJson.compact

def ofText? (text : String) : Option Rule := (Json.parse? text).bind ofJson?

end Rule

namespace Config

def ofText? (text : String) : Option Config := (Json.parse? text).bind ofJson?

end Config

end PeerExchange
