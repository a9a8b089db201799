import Tracemate.Lib.Json

/-!
# Elastic APM documents

The inline functions of `tm_process.h` that read the version and the service of a document.
-/

namespace Tracemate

open CStr JsonC

variable (lib : Conversions)

/-- `atoi` of a string of one byte. -/
def digit (c : UInt8) : ℕ := if 48 ≤ c ∧ c ≤ 57 then (c - 48).toNat else 0

/-- `@metadata.version`, where it is there and not empty. -/
def metadataVersion (m : Option Json) : Option Bytes :=
  match Json.get (cstr "version") (Json.get (cstr "@metadata") m) with
  | none => none
  | some version => match lib.getString (some version) with
    | some (c :: v) => some (c :: v)
    | _ => none

/-- `tm_apm_server_major_version`. -/
def tmApmServerMajorVersion (m : Option Json) : ℕ :=
  match m with
  | none => 0
  | some _ => match metadataVersion lib m with
    | some (c :: _) => digit c
    | _ => 6

/-- `tm_apm_server_version`. -/
def tmApmServerVersion (m : Option Json) : Option Bytes := metadataVersion lib m

/-- `tm_service_name`. -/
def tmServiceName (m : Option Json) : Option Bytes :=
  -- might be missing an @metadata stanza, try version 6
  let mv := if tmApmServerMajorVersion lib m = 0 then 6 else tmApmServerMajorVersion lib m
  if mv < 6 then none
  else
    let root := if mv = 6 then Json.get (cstr "context") m else m
    lib.getString (Json.get (cstr "name") (Json.get (cstr "service") root))

/-- `tm_get_team`: what comes before the first dash. -/
def tmGetTeam (sn : Option Bytes) : Option Bytes :=
  match sn with
  | none => none
  | some sn => if (45 : UInt8) ∈ sn then some (sn.takeWhile (· ≠ 45)) else none

end Tracemate
