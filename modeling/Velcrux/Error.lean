import Mathlib

/-!
# Errors

The part of `error::VelcruxError` that the modelled functions return, with the texts of the source.
A panic of the running task is a failure of its own.
-/

namespace Velcrux

inductive ProtocolError where
  | empty
  | nonCanonicalVarint
  | varintOverflow
  | frameTooLarge (declared limit : ℕ)
  | versionMismatch (got expected : UInt8)
  | unsupportedMessage (type : UInt8)
  | invalidStateTransition (detail : String)
  | malformed (detail : String)
  | invalidPath
  | invalidIdentity (detail : String)
  | permissionDenied
  | invalidManifest (detail : String)
  | quotaExceeded (detail : String)
  | decompressionBomb (detail : String)
  | diskFull (detail : String)
deriving DecidableEq

inductive VelcruxError where
  | protocol (e : ProtocolError)
  | io
  | internal (detail : String)
deriving DecidableEq

def protocolViolation (detail : String) : VelcruxError :=
  .protocol (.invalidStateTransition detail)

inductive Failure where
  | error (e : VelcruxError)
  | panic (message : String)
deriving DecidableEq

end Velcrux
