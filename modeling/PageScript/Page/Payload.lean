import PageScript.Data.Json.Printer
import PageScript.Page.Linker

/-! What a rendered page hands to the browser. -/

namespace PageScript

structure SnippetPayload where
  self : Data
  data : Data
  js : Text
  snippets : List String
  elements : List Data

structure PluginPayload where
  name : String
  key : String
  root : String
  guiNodes : Option Data

structure Payload where
  root : String := ""
  snippets : Keyed SnippetPayload := []
  plugins : List PluginPayload := []
  assets : LinkedAssets := {}

def SnippetPayload.toData (payload : SnippetPayload) : Data :=
  let data : List (String × Data) :=
    match payload.data with
    | .null => []
    | data => [("data", data)]
  .record ([("conf", payload.self)] ++ data ++
    [("js", .text (String.ofList payload.js)), ("snippets", .list (payload.snippets.map .text))] ++
    if payload.elements.isEmpty then [] else [("elements", .list payload.elements)])

def PluginPayload.toData (payload : PluginPayload) : Data :=
  .record ([("name", .text payload.name), ("key", .text payload.key), ("root", .text payload.root)] ++
    match payload.guiNodes with
    | some nodes => [("guiNodes", nodes)]
    | none => [])

namespace Payload

def toData (payload : Payload) : Data :=
  .record [
    ("root", .text payload.root),
    ("lx", .record (payload.snippets.map fun (key, snippet) => (key, snippet.toData))),
    ("plugins", .list (payload.plugins.map PluginPayload.toData)),
    ("assets", payload.assets.toData)]

def text (payload : Payload) : Text :=
  Json.compact payload.toData

end Payload

end PageScript
