import Openmoko.Library.Decimal
import Openmoko.Opkg.PkgParse

/-!
# Writing the status file (`pkg.c`)

`pkg_formatted_field` writes one field through a line buffer of 128 bytes, and `pkg_print_status` the
fields of a package one after the other. Writing Provides changes the package: the entry that the
parser has put first is cleared.
-/

namespace Openmoko.Opkg

def LINE_LEN : ℕ := 128

def snprintf (size : ℕ) (text : List Byte) : List Byte := text.take (size - 1)

/-- `%d` for an `unsigned long`, of which it takes the low 32 bits. -/
def decimalInt (n : ℕ) : List Byte :=
  let low := n % 0x100000000
  if low < 0x80000000 then decimal low else ascii "-" ++ decimal (0x100000000 - low)

def pkgVersionStrAlloc (pkg : PkgVersion) : List Byte :=
  let epochStr := if pkg.epoch = 0 then [] else decimalInt pkg.epoch ++ ascii ":"
  let revisionStr := if pkg.revision.getD [] = [] then [] else ascii "-" ++ pkg.revision.getD []
  epochStr ++ pkg.version.getD (ascii "(null)") ++ revisionStr

def pkgStateWantToStr (sw : StateWant) : List Byte :=
  ((pkgStateWantMap.find? fun entry => entry.1 = sw).map Prod.snd).getD (ascii "<STATE_WANT_UNKNOWN>")

def pkgStateStatusToStr (ss : StateStatus) : List Byte :=
  ((pkgStateStatusMap.find? fun entry => entry.1 = ss).map Prod.snd).getD
    (ascii "<STATE_STATUS_UNKNOWN>")

def SF_NONVOLATILE_FLAGS : ℕ := 314

def pkgStateFlagToStr (sf : ℕ) : List Byte :=
  let sf := sf &&& SF_NONVOLATILE_FLAGS
  if sf = 0 then ascii "ok"
  else
    ((pkgStateFlagMap.filter fun entry => sf &&& entry.1 ≠ 0).flatMap
      fun entry => entry.2 ++ [COMMA]).dropLast

def formattedList (field : String) (entries : List (List Byte)) : List Byte :=
  if entries = [] then []
  else
    ascii field ++ ascii ":" ++
      (entries.zipIdx.flatMap fun (entry, i) =>
        snprintf LINE_LEN ((if i = 0 then [] else [COMMA]) ++ ascii " " ++ entry)) ++ [LF]

/-- `strstr(s, lit) != NULL`. -/
def strstrFinds (s lit : List Byte) : Bool := s.tails.any (hasPrefix · lit)

def clearedProvides (entries : List (List Byte)) : List (List Byte) :=
  entries.map fun entry => if strstrFinds entry INTERNAL_USE_ONLY then [] else entry

def formattedProvides (entries : List (List Byte)) : List Byte :=
  let flagProvideFalse := entries.any (strstrFinds · INTERNAL_USE_ONLY)
  if entries = [] then []
  else if !flagProvideFalse || 1 < entries.length then
    ascii "Provides:" ++
      ((clearedProvides entries).zipIdx.flatMap fun (entry, i) =>
        if entry = [] then []
        else snprintf LINE_LEN ((if i = 1 then [] else [COMMA]) ++ ascii " " ++ entry)) ++ [LF]
  else []

def conffileText (conffile : List Byte × List Byte) : List Byte :=
  snprintf LINE_LEN (conffile.1 ++ ascii " " ++ conffile.2 ++ [LF])

def formattedConffiles (conffiles : List (List Byte × List Byte)) : List Byte :=
  if conffiles = [] then []
  else ascii "Conffiles:" ++ [LF] ++ conffiles.flatMap conffileText

def formattedStatus (pkg : ParsedPkg) : List Byte :=
  ascii "Status: " ++ pkgStateWantToStr pkg.stateWant ++ ascii " " ++
    pkgStateFlagToStr pkg.stateFlag ++ ascii " " ++ pkgStateStatusToStr pkg.stateStatus ++ [LF]

def printField (text : List Byte) : List Byte := if 2 < text.length then text else []

def printStatusFields (pkg : ParsedPkg) : List (List Byte) :=
  [ascii "Package: " ++ pkg.name.getD (ascii "(null)") ++ [LF],
    ascii "Version: " ++ pkgVersionStrAlloc pkg.toPkgVersion ++ [LF],
    formattedList "Depends" pkg.dependsStr,
    formattedList "Recommends" pkg.recommendsStr,
    formattedList "Suggests" pkg.suggestsStr,
    formattedProvides pkg.providesStr,
    formattedList "Replaces" pkg.replacesStr,
    formattedList "Conflicts" pkg.conflictsStr,
    formattedStatus pkg,
    if pkg.essential then ascii "Essential: yes" ++ [LF] else [],
    match pkg.architecture with
      | some architecture => ascii "Architecture: " ++ architecture ++ [LF]
      | none => [],
    formattedConffiles pkg.conffiles,
    if pkg.installedTime = 0 then []
      else snprintf 29 (ascii "Installed-Time: " ++ decimal pkg.installedTime ++ [LF]),
    if pkg.autoInstalled then ascii "Auto-Installed: yes" ++ [LF] else []]

def pkgPrintStatus (pkg : ParsedPkg) : List Byte × ParsedPkg :=
  ((printStatusFields pkg).flatMap printField ++ [LF],
    { pkg with providesStr := clearedProvides pkg.providesStr })

end Openmoko.Opkg
