import LowKeyWebServer.Bytes
import Std.Data.TreeMap

/-!
# Requests

The parsed request (`request.h`): the data that the parser writes and the handlers
read.
-/

namespace LowKeyWebServer

/-- `std::map<std::string, V>`: ordered by key. -/
abbrev StringMap (V : Type) : Type := Std.TreeMap Bytes V

/-- `Request::Method`, in the order of the enumeration. -/
inductive Method : Type where
  | get | post | put | delete | head | connect | options | trace | patch
  deriving DecidableEq

/-- The number of the enumerator. -/
def Method.number : Method → Nat
  | .get => 0
  | .post => 1
  | .put => 2
  | .delete => 3
  | .head => 4
  | .connect => 5
  | .options => 6
  | .trace => 7
  | .patch => 8

/-- A parsed HTTP request. -/
structure Request : Type where
  /-- the method (GET, PUT, POST, ...) -/
  method : Method
  /-- the resource for the request -/
  uri : Bytes
  /-- headers included in the request -/
  headers : StringMap Bytes
  /-- body of the request -/
  body : Bytes
  /-- HTTP version the requester is using -/
  version : Bytes

/-- `RequestParser::reset(Request&)`: every field back to its default. -/
def Request.cleared : Request := ⟨.get, [], ∅, [], []⟩

end LowKeyWebServer
