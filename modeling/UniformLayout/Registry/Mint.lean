import UniformLayout.Registry.Basic
import UniformLayout.Text.Numbered

/-!
# Minting identities

A new type gets a persistent id made from its content hash, and its declared name as the generated
name. Where the id or the name is taken, further ones are tried in a fixed order.

Main statements: `Registry.freeId?_not_known` and `Registry.isFreeName_mintName`.
-/

namespace UniformLayout.Registry

def idLength : Nat := 16

/-- The id that is tried for a content hash at the given attempt. -/
def candidateId (hash : String) (attempt : Nat) : String :=
  let digest := Text.hex (Sha1.sha1 (s!"{hash}:{attempt}").toUTF8.data.toList)
  String.ofList (digest.toList.take idLength)

/-- The first id that is not known among `left` attempts from `attempt` on. -/
def freeId? (isKnown : String → Bool) (hash : String) : (left attempt : Nat) → Option String
  | 0, _ => none
  | left + 1, attempt =>
    let id := candidateId hash attempt
    if isKnown id then freeId? isKnown hash left (attempt + 1) else some id

theorem freeId?_not_known {isKnown : String → Bool} {hash id : String} {left attempt : Nat}
    (h : freeId? isKnown hash left attempt = some id) : isKnown id = false := by
  induction left generalizing attempt with
  | zero => simp [freeId?] at h
  | succ left ih =>
    simp only [freeId?] at h
    split at h
    · exact ih h
    · simp_all

/-- A persistent id for a content hash that no record has. When no attempt is left the hash itself
stands in for an id. -/
def mintId (registry : Registry) (hash : String) : String :=
  (freeId? (fun id => (registry.byId.lookup id).isSome) hash (1 <<< 32) 0).getD hash

/-- A taken name with more and more characters of the id behind it. -/
def suffixedNames (declared id : String) (suffixLength : Nat) : List String :=
  let first := max 1 (min suffixLength id.length)
  (List.range (id.length + 1 - first)).map fun more =>
    declared ++ "_" ++ String.ofList (id.toList.take (first + more))

def isFreeName (registry : Registry) (name : String) : Bool :=
  (registry.byGeneratedName.lookup name).isNone

/-- A generated name for a declared name that no record has: the name itself, or with a part of the
id, or with the whole id and a number. One more numbered name is tried than there are names to
collide with. -/
def mintName (registry : Registry) (declared id : String) : String :=
  let stem := declared ++ "_" ++ id
  if registry.isFreeName declared then declared
  else (((suffixedNames declared id registry.suffixLength).find? registry.isFreeName).or
    (Text.firstNumbered? registry.isFreeName stem "_" (registry.byGeneratedName.length + 1) 1)).getD
      stem

theorem numberedName_isSome (registry : Registry) (stem : String) :
    (Text.firstNumbered? registry.isFreeName stem "_" (registry.byGeneratedName.length + 1)
      1).isSome := by
  refine Text.firstNumbered?_isSome registry.byGeneratedName.keys (fun k _ h => ?_) ?_
  · refine Table.lookup_isSome_iff.1 ?_
    simpa [isFreeName] using h
  · simp [Table.keys]

/-- The name that is minted is free. -/
theorem isFreeName_mintName (registry : Registry) (declared id : String) :
    registry.isFreeName (registry.mintName declared id) = true := by
  obtain ⟨numbered, hn⟩ :=
    Option.isSome_iff_exists.1 (registry.numberedName_isSome (declared ++ "_" ++ id))
  by_cases hd : registry.isFreeName declared
  · rw [mintName, if_pos hd]
    exact hd
  · rw [mintName, if_neg hd, hn]
    cases hs : (suffixedNames declared id registry.suffixLength).find? registry.isFreeName with
    | none => exact Text.firstNumbered?_accepted hn
    | some name => exact List.find?_some hs

end UniformLayout.Registry
