import PageScript.Failure

/-! How pages are cached. Only not caching them is supported. -/

namespace PageScript

inductive CacheMode where
  | none
  | build
  | strict
  | on
  | smart
  deriving DecidableEq, Repr

namespace CacheMode

def all : List CacheMode :=
  [.none, .build, .strict, .on, .smart]

def name : CacheMode → String
  | .none => "none"
  | .build => "build"
  | .strict => "strict"
  | .on => "on"
  | .smart => "smart"

def ofName? (name : String) : Option CacheMode :=
  all.find? (·.name == name)

def ensureSupported (mode : CacheMode) : Except Failure Unit :=
  if mode = .none then .ok () else .error (.cacheMode mode.name)

end CacheMode

end PageScript
