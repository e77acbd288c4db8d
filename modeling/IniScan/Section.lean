import IniScan.KindSet
import IniScan.Text.Basic

/-!
# The vocabulary of section names

A header opens a section if its name begins with one of these words. Some of them are followed by a subject,
and a grammar then asks for the kinds in `suffixKinds`.

* `name_inj`: no word stands twice in the vocabulary.
* `letters_ne_nil`: no word is empty.
-/
namespace IniScan

/-- A word that opens a section. -/
inductive Section where
  | builtinCommandList
  | builtinCustomShader
  | clearRenderTargetView
  | clearDepthStencilView
  | clearUnorderedAccessViewUint
  | clearUnorderedAccessViewFloat
  | commandList
  | constants
  | convergenceMap
  | customShader
  | device
  | hunting
  | includeFile
  | key
  | loader
  | logging
  | preset
  | present
  | profile
  | rendering
  | resource
  | shaderOverride
  | shaderRegex
  | stereo
  | system
  | textureOverride
  deriving DecidableEq, Repr

namespace Section

/-- The vocabulary in its order, which decides between several words that a text contains. -/
def all : List Section :=
  [builtinCommandList, builtinCustomShader, clearRenderTargetView, clearDepthStencilView,
    clearUnorderedAccessViewUint, clearUnorderedAccessViewFloat, commandList, constants, convergenceMap,
    customShader, device, hunting, includeFile, key, loader, logging, preset, present, profile, rendering,
    resource, shaderOverride, shaderRegex, stereo, system, textureOverride]

theorem mem_all (k : Section) : k ∈ all := by cases k <;> decide

/-- The word in lower case. -/
def name : Section → String
  | builtinCommandList => "builtincommandlist"
  | builtinCustomShader => "builtincustomshader"
  | clearRenderTargetView => "clearrendertargetview"
  | clearDepthStencilView => "cleardepthstencilview"
  | clearUnorderedAccessViewUint => "clearunorderedaccessviewuint"
  | clearUnorderedAccessViewFloat => "clearunorderedaccessviewfloat"
  | commandList => "commandlist"
  | constants => "constants"
  | convergenceMap => "convergencemap"
  | customShader => "customshader"
  | device => "device"
  | hunting => "hunting"
  | includeFile => "include"
  | key => "key"
  | loader => "loader"
  | logging => "logging"
  | preset => "preset"
  | present => "present"
  | profile => "profile"
  | rendering => "rendering"
  | resource => "resource"
  | shaderOverride => "shaderoverride"
  | shaderRegex => "shaderregex"
  | stereo => "stereo"
  | system => "system"
  | textureOverride => "textureoverride"

/-- The word as a text. -/
def letters (k : Section) : List Char := k.name.toList

theorem letters_ne_nil (k : Section) : k.letters ≠ [] := by cases k <;> decide

theorem name_inj {j k : Section} : j.name = k.name ↔ j = k := by
  refine ⟨fun h => ?_, fun h => h ▸ rfl⟩
  have key : ∀ j ∈ all, ∀ k ∈ all, j.name = k.name → j = k := by decide
  exact key j (mem_all j) k (mem_all k) h

/-- The section with this name, in any case. -/
def ofName? (s : List Char) : Option Section := all.find? fun k => k.letters = Text.lower s

/-- The size of the longest word that begins with `c` in either case, zero if none does. -/
def longestFrom (c : Char) : Nat :=
  ((all.filter fun k => k.letters.head? = some c.toLower).map fun k => k.letters.length).max?.getD 0

/-- The kinds in which a grammar takes the rest of the header after the word, none if the header is the word alone. -/
def suffixKinds : Section → KindSet
  | key => {Kind.keySuffix}
  | preset => {Kind.presetSuffix}
  | resource => {Kind.resourceSuffix}
  | includeFile => {Kind.includeSuffix}
  | shaderRegex => KindSet.regex
  | builtinCommandList | builtinCustomShader | commandList | customShader | shaderOverride | textureOverride =>
    {Kind.commandListSuffix}
  | _ => ∅

/-- `suffixKinds` of the section with this name, none for any other text. -/
def headerSuffixKinds (s : List Char) : KindSet := ((ofName? s).map suffixKinds).getD ∅

end Section

end IniScan
