/-!
# Causes of failure

An `Error` carries the place that reports it and the sizes involved, never any
bytes of a key, nonce or message, so it can be shown to anyone. The wording is
`Error.message`.
-/
namespace AuthEncryption

/-- What went wrong in a byte source or a byte sink. -/
inductive IoKind where
  | notFound
  | permissionDenied
  | connectionRefused
  | connectionReset
  | hostUnreachable
  | networkUnreachable
  | connectionAborted
  | notConnected
  | addrInUse
  | addrNotAvailable
  | networkDown
  | brokenPipe
  | alreadyExists
  | wouldBlock
  | notADirectory
  | isADirectory
  | directoryNotEmpty
  | readOnlyFilesystem
  | staleNetworkFileHandle
  | invalidInput
  | invalidData
  | timedOut
  | writeZero
  | storageFull
  | notSeekable
  | quotaExceeded
  | fileTooLarge
  | resourceBusy
  | executableFileBusy
  | deadlock
  | crossesDevices
  | tooManyLinks
  | invalidFilename
  | argumentListTooLong
  | interrupted
  | unsupported
  | unexpectedEof
  | outOfMemory
  | other
deriving DecidableEq, Repr

namespace IoKind

/-- Every kind, in the order of the declaration. -/
def all : List IoKind :=
  [notFound, permissionDenied, connectionRefused, connectionReset, hostUnreachable,
    networkUnreachable, connectionAborted, notConnected, addrInUse, addrNotAvailable,
    networkDown, brokenPipe, alreadyExists, wouldBlock, notADirectory, isADirectory,
    directoryNotEmpty, readOnlyFilesystem, staleNetworkFileHandle, invalidInput, invalidData,
    timedOut, writeZero, storageFull, notSeekable, quotaExceeded, fileTooLarge, resourceBusy,
    executableFileBusy, deadlock, crossesDevices, tooManyLinks, invalidFilename,
    argumentListTooLong, interrupted, unsupported, unexpectedEof, outOfMemory, other]

def name : IoKind → String
  | notFound => "NotFound"
  | permissionDenied => "PermissionDenied"
  | connectionRefused => "ConnectionRefused"
  | connectionReset => "ConnectionReset"
  | hostUnreachable => "HostUnreachable"
  | networkUnreachable => "NetworkUnreachable"
  | connectionAborted => "ConnectionAborted"
  | notConnected => "NotConnected"
  | addrInUse => "AddrInUse"
  | addrNotAvailable => "AddrNotAvailable"
  | networkDown => "NetworkDown"
  | brokenPipe => "BrokenPipe"
  | alreadyExists => "AlreadyExists"
  | wouldBlock => "WouldBlock"
  | notADirectory => "NotADirectory"
  | isADirectory => "IsADirectory"
  | directoryNotEmpty => "DirectoryNotEmpty"
  | readOnlyFilesystem => "ReadOnlyFilesystem"
  | staleNetworkFileHandle => "StaleNetworkFileHandle"
  | invalidInput => "InvalidInput"
  | invalidData => "InvalidData"
  | timedOut => "TimedOut"
  | writeZero => "WriteZero"
  | storageFull => "StorageFull"
  | notSeekable => "NotSeekable"
  | quotaExceeded => "QuotaExceeded"
  | fileTooLarge => "FileTooLarge"
  | resourceBusy => "ResourceBusy"
  | executableFileBusy => "ExecutableFileBusy"
  | deadlock => "Deadlock"
  | crossesDevices => "CrossesDevices"
  | tooManyLinks => "TooManyLinks"
  | invalidFilename => "InvalidFilename"
  | argumentListTooLong => "ArgumentListTooLong"
  | interrupted => "Interrupted"
  | unsupported => "Unsupported"
  | unexpectedEof => "UnexpectedEof"
  | outOfMemory => "OutOfMemory"
  | other => "Other"

def ofName? (text : String) : Option IoKind := all.find? (·.name == text)

end IoKind

/-- A cause of failure, with the context that reports it. -/
inductive Error where
  /-- The tag does not belong to the message, or a stream ended before its final chunk. -/
  | forgedOrCorrupted (context : String)
  /-- A public key is not a usable point. -/
  | invalidPoint (context : String)
  | cipherTooShort (context : String) (minimum actual : Nat)
  /-- An output buffer, or an input that must fill one, is too short. -/
  | bufferTooShort (context : String) (expected actual : Nat)
  /-- A length is not the one required, or is above the largest one. -/
  | invalidLength (context : String) (expected actual : Nat)
  | invalidParameter (context message : String)
  | invalidState (context : String)
  | randomGeneration (context : String)
  | io (context : String) (kind : IoKind)
  | other (context : String)
deriving DecidableEq, Repr

namespace Error

/-- The same cause and sizes, reported by another context. -/
def withContext (context : String) : Error → Error
  | forgedOrCorrupted _ => forgedOrCorrupted context
  | invalidPoint _ => invalidPoint context
  | cipherTooShort _ minimum actual => cipherTooShort context minimum actual
  | bufferTooShort _ expected actual => bufferTooShort context expected actual
  | invalidLength _ expected actual => invalidLength context expected actual
  | invalidParameter _ message => invalidParameter context message
  | invalidState _ => invalidState context
  | randomGeneration _ => randomGeneration context
  | io _ kind => io context kind
  | other _ => other context

/-- Whether the cause is a failed authentication. -/
def isForged : Error → Bool
  | forgedOrCorrupted _ => true
  | _ => false

/-- An I/O failure reported without naming the operation. -/
def ofIo (kind : IoKind) : Error := io "I/O operation" kind

/-- Bytes that do not fill the fixed-size string they were meant for; the sizes
are not recorded. -/
def arrayConversion : Error := invalidLength "array conversion" 0 0

def message : Error → String
  | forgedOrCorrupted context => s!"{context}: message forged or corrupted"
  | invalidPoint context => s!"{context}: invalid public key point"
  | cipherTooShort context minimum actual =>
    s!"{context}: ciphertext too short (need at least {minimum}, got {actual})"
  | bufferTooShort context expected actual =>
    s!"{context}: output buffer too short (need {expected}, got {actual})"
  | invalidLength context expected actual =>
    s!"{context}: invalid length (expected {expected}, got {actual})"
  | invalidParameter context message => s!"{context}: {message}"
  | invalidState context => s!"{context}: invalid state"
  | randomGeneration context => s!"Random generation error: {context}"
  | io context kind => s!"{context}: {kind.name}"
  | other context => s!"Error: {context}"

/-- A result whose failure, if any, is reported by another context. -/
def relabel {α : Type} (context : String) (result : Except Error α) : Except Error α :=
  result.mapError (withContext context)

/-- A result whose failure, if any, is replaced as a whole. -/
def replace {α : Type} (replacement : Error) (result : Except Error α) : Except Error α :=
  result.mapError fun _ => replacement

end Error

end AuthEncryption
