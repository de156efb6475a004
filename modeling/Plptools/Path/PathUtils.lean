import Mathlib.Data.Nat.Notation
import Mathlib.Data.List.DropRight

/-!
# Paths

A path is split at its separators into components. The drive of a Windows path and the root are
components of their own; an empty component at the end stands for a trailing separator. Joining
puts the separators back, and resolving a path follows its components from those of a base path.
-/

namespace Plptools.PathUtils

/-- What a path looks like: its separator and whether it may begin with a drive. -/
inductive PathFormat where
  | kPOSIX
  | kWindows
deriving DecidableEq, Repr

/-- The format of the paths on the device. -/
abbrev kEPOC : PathFormat := .kWindows

/-- The letters of a locale. The separator of Windows paths and the period are punctuation. -/
structure Letters where
  isalpha : UInt8 → Bool
  toupper : UInt8 → UInt8
  isalpha_backslash : isalpha 0x5c = false
  isalpha_period : isalpha 0x2e = false

/-- The letters of the C locale. -/
def cLetters : Letters where
  isalpha c := (0x41 ≤ c && c ≤ 0x5a) || (0x61 ≤ c && c ≤ 0x7a)
  toupper c := if 0x61 ≤ c ∧ c ≤ 0x7a then c - 0x20 else c
  isalpha_backslash := rfl
  isalpha_period := rfl

variable (letters : Letters)

/-- A letter and a colon. -/
def isDriveComponent (pathComponent : List UInt8) : Bool :=
  match pathComponent with
  | [c, 0x3a] => letters.isalpha c
  | _ => false

/-- The separator of a format. -/
def pathSeparator : PathFormat → UInt8
  | .kPOSIX => 0x2f
  | .kWindows => 0x5c

/-- The component that is the root. -/
def isSeparator (pathComponent : List UInt8) (format : PathFormat) : Bool :=
  pathComponent == [pathSeparator format]

/-- Whether a component is the drive of a path, when it is the first one. -/
def isDrive (format : PathFormat) (pathComponent : List UInt8) : Bool :=
  format == .kWindows && isDriveComponent letters pathComponent

/-- A POSIX path is absolute if it starts at the root, a Windows path if a drive comes first. -/
def isAbsolute (components : List (List UInt8)) (format : PathFormat) : Bool :=
  match format, components with
  | .kPOSIX, c :: _ => c == [0x2f]
  | .kWindows, c :: d :: _ => isDriveComponent letters c && d == [0x5c]
  | _, _ => false

/-- Whether a path starts at a root, that of a drive or not. -/
def isRooted (components : List (List UInt8)) (format : PathFormat) : Bool :=
  match format, components with
  | .kPOSIX, c :: _ => c == [0x2f]
  | .kWindows, [c] => c == [0x5c]
  | .kWindows, c :: d :: _ => (isDriveComponent letters c && d == [0x5c]) || c == [0x5c]
  | _, [] => false

/-- The drive that a path names, in upper case; empty if it names none. -/
def driveComponent (components : List (List UInt8)) (format : PathFormat) : List UInt8 :=
  match format, components with
  | .kWindows, [c, 0x3a] :: _ => if letters.isalpha c then [letters.toupper c, 0x3a] else []
  | _, _ => []

/-- The loop of `split`, one character at a time. `piece` is what was read since the last
separator, `atStart` says that there was none yet, and `foundNonRootSeparator` is the variable of
that name. -/
def splitLoop (separator : UInt8) :
    (atStart foundNonRootSeparator : Bool) → (piece path : List UInt8) → List (List UInt8)
  | _, foundNonRootSeparator, piece, [] =>
    if piece ≠ [] ∨ foundNonRootSeparator then [piece] else []
  | atStart, foundNonRootSeparator, piece, c :: path =>
    if c = separator then
      if atStart ∧ piece = [] then
        -- the separator at the start is the root, and is kept as a component
        [c] :: splitLoop separator false foundNonRootSeparator [] path
      else if piece = [] then splitLoop separator false true [] path
      else piece :: splitLoop separator false true [] path
    else splitLoop separator atStart foundNonRootSeparator (piece ++ [c]) path

/-- Split a path after the drive. -/
def splitRest (format : PathFormat) (path : List UInt8) : List (List UInt8) :=
  splitLoop (pathSeparator format) true false [] path

/-- Split a path into its components. -/
def split (path : List UInt8) (format : PathFormat) : List (List UInt8) :=
  if format = .kWindows ∧ 2 ≤ path.length ∧ isDriveComponent letters (path.take 2) then
    path.take 2 :: splitRest format (path.drop 2)
  else splitRest format path

/-- One component more. `first` says that it is the first one. -/
def joinStep (separator : UInt8) (first : Bool) (path component : List UInt8) : List UInt8 :=
  let path := if !first ∧ path.getLast? ≠ some separator then path ++ [separator] else path
  let path := if component = [] ∧ path = [] then path ++ [0x2e, separator] else path
  path ++ component

/-- The loop of `join`. -/
def joinLoop (separator : UInt8) : (first : Bool) → (path : List UInt8) → List (List UInt8) → List UInt8
  | _, path, [] => path
  | first, path, component :: components =>
    joinLoop separator false (joinStep separator first path component) components

/-- Join components to a path. -/
def join (components : List (List UInt8)) (format : PathFormat) : List UInt8 :=
  match components with
  | [] => []
  | drive :: rest =>
    if isDrive letters format drive then drive ++ joinLoop (pathSeparator format) true [] rest
    else joinLoop (pathSeparator format) true [] components

/-- Append components to a path. -/
def appendingComponents (path : List UInt8) (components : List (List UInt8)) (format : PathFormat) :
    List UInt8 :=
  join letters (split letters path format ++ components) format

/-- The number of components that are the drive or the root. -/
def pathFindRootlessComponentsBegin (components : List (List UInt8)) (format : PathFormat) : ℕ :=
  match components with
  | [] => 0
  | c :: rest =>
    if isDrive letters format c then
      match rest with
      | [] => 1
      | d :: _ => if isSeparator d format then 2 else 1
    else if isSeparator c format then 1
    else 0

/-- Two periods: the parent directory. -/
def parent : List UInt8 := [0x2e, 0x2e]

/-- One period: the directory itself. -/
def current : List UInt8 := [0x2e]

/-- Follow one component of a path from the components `resolved`. -/
def foldComponent (resolved : List (List UInt8)) (pathComponent : List UInt8) : List (List UInt8) :=
  -- trailing directory markers go before the next component
  let resolved := resolved.rdropWhile List.isEmpty
  if pathComponent = parent then
    if resolved = [] ∨ resolved.getLast? = some parent then resolved ++ [parent]
    else resolved.dropLast
  else resolved ++ [pathComponent]

/-- The components of the resolved path. -/
def resolvedComponents (pathComponents basePathComponents : List (List UInt8)) (format : PathFormat) :
    List (List UInt8) :=
  let begin := pathFindRootlessComponentsBegin letters basePathComponents format
  let root := basePathComponents.take begin
  if isRooted letters pathComponents format then
    (if root = [] ∨ root.getLast? ≠ some [pathSeparator format] then root ++ [[pathSeparator format]]
      else root) ++ pathComponents.tail
  else root ++ pathComponents.foldl foldComponent (basePathComponents.drop begin)

/-- Resolve a path against a base path. -/
def resolvePath (path basePath : List UInt8) (format : PathFormat) : List UInt8 :=
  let pathComponents := split letters path format
  let basePathComponents := split letters basePath format
  let pathDrive := driveComponent letters pathComponents format
  if isAbsolute letters pathComponents format then path
  else if pathDrive ≠ [] ∧ pathDrive ≠ driveComponent letters basePathComponents format ∧
      !isRooted letters pathComponents format then path
  else
    let resolvedPath := join letters (resolvedComponents letters pathComponents basePathComponents format) format
    if resolvedPath = [] then current else resolvedPath

end Plptools.PathUtils
