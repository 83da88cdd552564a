import Vuma.Package.Resolver

/-!
# The version that is found

`find_version` of `registry.rs` gives the requirement itself when it is listed, and else the
matching version that is the greatest as a string. Versions are meant as sequences of numbers, for
which `0.1.10` comes after `0.1.9`; as strings it comes before.
-/

namespace Vuma.Package

open Lib

/-- The version is the requirement, or goes on after it and a dot. -/
def Matches (req v : String) : Prop :=
  v = req ∨ (if req.endsWith "." then req.toList else req.toList ++ ['.']) <+: v.toList

/-- The number that some decimal digits stand for. -/
def decimal (digits : List Char) : Option Nat :=
  if digits ≠ [] ∧ digits.all Char.isDigit then
    some (digits.foldl (fun n c => 10 * n + (c.toNat - '0'.toNat)) 0)
  else none

/-- The components of a version, when all are decimal numbers. -/
def components (v : String) : Option (List Nat) := (v.toList.splitOn '.').mapM decimal

/-- Component by component, the first version is before the second. -/
def NumericLt (v w : String) : Prop :=
  ∃ cs ds, components v = some cs ∧ components w = some ds ∧ cs < ds

theorem matchesPrefix_iff {req v : String} : matchesPrefix req v = true ↔ Matches req v := by
  rw [matchesPrefix, Matches, Bool.or_eq_true, String.startsWith_string_iff, beq_iff_eq, or_comm]
  split <;> simp

theorem pairwise_mergeSort (l : List String) : (l.mergeSort (· ≤ ·)).Pairwise (· ≤ ·) := by
  have hsorted := @List.pairwise_mergeSort _ (fun u w : String => decide (u ≤ w))
    (fun a b c hab hbc => by
      simpa using String.le_trans (by simpa using hab) (by simpa using hbc))
    (fun a b => by simpa using String.le_total a b) l
  simpa using hsorted

/-- The last element of a sorted list is the greatest. -/
theorem getLast?_mergeSort {l : List String} {v : String}
    (h : (l.mergeSort (· ≤ ·)).getLast? = some v) : v ∈ l ∧ ∀ u ∈ l, u ≤ v := by
  have hmem : ∀ u, u ∈ l.mergeSort (· ≤ ·) ↔ u ∈ l := fun u => List.mem_mergeSort
  have hsorted := pairwise_mergeSort l
  refine ⟨(hmem v).mp (List.mem_of_getLast? h), fun u hu => ?_⟩
  obtain ⟨before, heq⟩ := List.getLast?_eq_some_iff.mp h
  rw [← hmem, heq, List.mem_append, List.mem_singleton] at hu
  rw [heq, List.pairwise_append] at hsorted
  rcases hu with hu | rfl
  · exact hsorted.2.2 u hu v (List.mem_singleton_self v)
  · exact String.le_refl u

/-- The requirement, or the matching version that is the greatest as a string. -/
structure Best (versions : List String) (req v : String) : Prop where
  mem : v ∈ versions
  matches' : Matches req v
  greatest : if req ∈ versions then v = req else ∀ u ∈ versions, Matches req u → u ≤ v

theorem Best.unique {versions : List String} {req v w : String} (hv : Best versions req v)
    (hw : Best versions req w) : v = w := by
  have hvg := hv.greatest
  have hwg := hw.greatest
  by_cases hreq : req ∈ versions
  · rw [if_pos hreq] at hvg hwg
    rw [hvg, hwg]
  · rw [if_neg hreq] at hvg hwg
    exact String.le_antisymm (hwg v hv.mem hv.matches') (hvg w hw.mem hw.matches')

/-- What `find_version` gives, in terms of the listed versions. -/
theorem findVersion_spec {reg : PackageRegistry} {index : HashMap String (List String)}
    (hindex : reg.index = .ok index) (name req : String) :
    (∃ v, reg.findVersion name req = .ok v ∧ Best ((index.lookup name).getD []) req v) ∨
    (reg.findVersion name req = .error (.dependencyNotFound name req) ∧
      ∀ v ∈ (index.lookup name).getD [], ¬ Matches req v) := by
  rw [PackageRegistry.findVersion, hindex]
  dsimp only
  generalize (index.lookup name).getD [] = versions
  by_cases hempty : versions.isEmpty = true
  · rw [if_pos hempty]
    obtain rfl := List.isEmpty_iff.mp hempty
    exact .inr ⟨rfl, by simp⟩
  rw [if_neg hempty]
  by_cases hreq : req ∈ versions
  · rw [if_pos (List.contains_iff_mem.mpr hreq)]
    exact .inl ⟨req, rfl, hreq, .inl rfl, by rw [if_pos hreq]⟩
  rw [if_neg fun h => hreq (List.contains_iff_mem.mp h)]
  have hmem : ∀ u, u ∈ versions.filter (matchesPrefix req) ↔ u ∈ versions ∧ Matches req u :=
    fun u => by rw [List.mem_filter, matchesPrefix_iff]
  cases hlast : ((versions.filter (matchesPrefix req)).mergeSort (· ≤ ·)).getLast? with
  | none =>
    refine .inr ⟨rfl, fun v hv hmv => ?_⟩
    have := (@List.mem_mergeSort _ (fun u w => decide (u ≤ w)) _ _).mpr ((hmem v).mpr ⟨hv, hmv⟩)
    rw [List.getLast?_eq_none_iff.mp hlast] at this
    cases this
  | some u =>
    obtain ⟨hu, hle⟩ := getLast?_mergeSort hlast
    obtain ⟨hu, hmu⟩ := (hmem u).mp hu
    refine .inl ⟨u, rfl, hu, hmu, ?_⟩
    rw [if_neg hreq]
    exact fun w hw hmw => hle w ((hmem w).mpr ⟨hw, hmw⟩)

theorem findVersion_ok_iff {reg : PackageRegistry} {index : HashMap String (List String)}
    (hindex : reg.index = .ok index) (name req v : String) :
    reg.findVersion name req = .ok v ↔ Best ((index.lookup name).getD []) req v := by
  rcases findVersion_spec hindex name req with ⟨w, hw, hbest⟩ | ⟨herr, hnone⟩
  · rw [hw]
    exact ⟨fun h => Except.ok.inj h ▸ hbest, fun h => congrArg _ (hbest.unique h)⟩
  · rw [herr]
    exact iff_of_false nofun fun h => hnone v h.mem h.matches'

/-- The highest matching version is found: a version is found if and only if one matches, it is the
requirement if that is listed, and no matching version is numerically higher otherwise. -/
structure FindsHighest (reg : PackageRegistry) (versions : List String) (name req : String) :
    Prop where
  ok_iff : (∃ v, reg.findVersion name req = .ok v) ↔ ∃ v ∈ versions, Matches req v
  listed : ∀ v, reg.findVersion name req = .ok v → v ∈ versions ∧ Matches req v
  exact : ∀ v, reg.findVersion name req = .ok v → req ∈ versions → v = req
  highest : ∀ v, reg.findVersion name req = .ok v → req ∉ versions →
    ∀ w ∈ versions, Matches req w → ¬ NumericLt v w

/-- The highest version is found if and only if the requirement is listed, or no matching version is
numerically higher than the one that comes last in the order of strings. -/
theorem findsHighest_iff (index : HashMap String (List String))
    (getManifest : String → String → Option PackageManifest) (name req : String) :
    FindsHighest ⟨.ok index, getManifest⟩ ((index.lookup name).getD []) name req ↔
      req ∈ (index.lookup name).getD [] ∨
      ∀ v ∈ (index.lookup name).getD [], Matches req v →
        (∀ u ∈ (index.lookup name).getD [], Matches req u → u ≤ v) →
        ∀ w ∈ (index.lookup name).getD [], Matches req w → ¬ NumericLt v w := by
  have hindex : (PackageRegistry.mk (.ok index) getManifest).index = .ok index := rfl
  have hok := findVersion_ok_iff hindex name req
  have hspec := findVersion_spec hindex name req
  generalize (index.lookup name).getD [] = versions at hok hspec ⊢
  constructor
  · intro h
    by_cases hreq : req ∈ versions
    · exact .inl hreq
    · refine .inr fun v hv hmv hle w hw hmw => ?_
      exact h.highest v ((hok v).mpr ⟨hv, hmv, by rwa [if_neg hreq]⟩) hreq w hw hmw
  · intro h
    refine ⟨⟨?_, ?_⟩, fun v hv => ?_, fun v hv hreq => ?_, fun v hv hreq => ?_⟩
    · rintro ⟨v, hv⟩
      exact ⟨v, ((hok v).mp hv).mem, ((hok v).mp hv).matches'⟩
    · rintro ⟨v, hv, hmv⟩
      rcases hspec with ⟨w, hw, -⟩ | ⟨-, hnone⟩
      · exact ⟨w, hw⟩
      · exact absurd hmv (hnone v hv)
    · exact ⟨((hok v).mp hv).mem, ((hok v).mp hv).matches'⟩
    · have := ((hok v).mp hv).greatest
      rwa [if_pos hreq] at this
    · have hbest := (hok v).mp hv
      have hle := hbest.greatest
      rw [if_neg hreq] at hle
      exact h.resolve_left hreq v hbest.mem hbest.matches' hle

/-- Ten patch releases. -/
def tenPatches : HashMap String (List String) :=
  (∅ : HashMap String (List String)).insert "vuma-std" ["0.1.9", "0.1.10"]

/-- The tenth patch release is passed over for the ninth. -/
theorem not_findsHighest : ¬ ∀ (index : HashMap String (List String))
    (getManifest : String → String → Option PackageManifest) (name req : String),
    FindsHighest ⟨.ok index, getManifest⟩ ((index.lookup name).getD []) name req := by
  intro hall
  have h := hall tenPatches (fun _ _ => none) "vuma-std" "0.1"
  have hversions : (tenPatches.lookup "vuma-std").getD [] = ["0.1.9", "0.1.10"] := by
    rw [tenPatches, HashMap.lookup_insert_ite, if_pos rfl, Option.getD_some]
  rw [hversions] at h
  have hmatches : ∀ v ∈ ["0.1.9", "0.1.10"], Matches "0.1" v := by
    intro v hv
    have hreq : ¬ "0.1".endsWith "." = true := by
      rw [String.endsWith, String.Slice.endsWith_string_iff]
      decide
    rw [Matches, if_neg hreq]
    simp only [List.mem_cons, List.not_mem_nil, or_false] at hv
    rcases hv with rfl | rfl <;> exact .inr (by decide)
  have hbest : Best ["0.1.9", "0.1.10"] "0.1" "0.1.9" := by
    refine ⟨by simp, hmatches _ (by simp), ?_⟩
    rw [if_neg (by decide)]
    intro u hu _
    simp only [List.mem_cons, List.not_mem_nil, or_false] at hu
    rcases hu with rfl | rfl <;> decide
  rw [← hversions] at hbest
  have hindex : (PackageRegistry.mk (.ok tenPatches) fun _ _ => none).index = .ok tenPatches := rfl
  have hfound := (findVersion_ok_iff hindex "vuma-std" "0.1" "0.1.9").mpr hbest
  exact h.highest _ hfound (by decide) "0.1.10" (by simp) (hmatches _ (by simp))
    ⟨[0, 1, 9], [0, 1, 10], by decide, by decide, by decide⟩

end Vuma.Package
