import CodeAtlas.Proofs.Text.LowerCase
import CodeAtlas.Responsibility.Heuristics
import Mathlib.Data.List.Forall2

/-! Letter case in a table of heuristics. Keywords are looked for in lower case, so their own case
does not count. Clients of data stores are looked for as they are written, in sources in lower case,
so those with a capital are never found. -/

namespace CodeAtlas

open Text

namespace Text

variable {word other : String}

/-- Whether a word is another one, or both are made of the same letters of ASCII in another case. -/
def Recased (word other : String) : Prop :=
  word = other ∨ IsAscii word ∧ IsAscii other ∧
    word.toList.map Char.toLower = other.toList.map Char.toLower

theorem Recased.lowercase_eq (h : Recased word other) : lowercase word = lowercase other := by
  rcases h with rfl | ⟨hword, hother, hletters⟩
  · rfl
  · apply String.toList_injective
    rw [hword.toList_lowercase, hother.toList_lowercase, hletters]

end Text

theorem CategoryRule.mentionedIn_recased {r r' : CategoryRule}
    (h : List.Forall₂ Recased r.keywords r'.keywords) (name : String) :
    r.mentionedIn name = r'.mentionedIn name := by
  unfold mentionedIn
  dsimp only
  generalize r.keywords = words, r'.keywords = words' at h
  induction h with
  | nil => rfl
  | cons hword _ ih => rw [List.any_cons, List.any_cons, hword.lowercase_eq, ih]

namespace Heuristics

variable {h other : Heuristics} {source client : String}

/-- Only what is in lower case occurs in a text in lower case. -/
theorem isDataAccessImport_iff : h.isDataAccessImport source = true ↔
    ∃ client ∈ h.dataImports, lowercase client = client ∧
      hasPart client (lowercase source) = true := by
  unfold isDataAccessImport
  dsimp only
  rw [List.any_eq_true]
  constructor
  · rintro ⟨client, hmem, hpart⟩
    exact ⟨client, hmem, lowercase_of_hasPart_lowercase hpart, hpart⟩
  · rintro ⟨client, hmem, -, hpart⟩
    exact ⟨client, hmem, hpart⟩

theorem isDataAccessImport_self (hmem : client ∈ h.dataImports)
    (hlower : lowercase client = client) : h.isDataAccessImport client = true := by
  have hwhole : hasPart client (lowercase client) = true := by
    rw [hlower]
    exact hasPart_iff.mpr (List.infix_refl _)
  exact isDataAccessImport_iff.mpr ⟨client, hmem, hlower, hwhole⟩

/-- A source is found if it holds another one that is found. -/
theorem isDataAccessImport_of_hasPart (hfound : h.isDataAccessImport client = true)
    (hpart : hasPart (lowercase client) (lowercase source) = true) :
    h.isDataAccessImport source = true := by
  obtain ⟨small, hsmall, hlower, hclient⟩ := isDataAccessImport_iff.mp hfound
  exact isDataAccessImport_iff.mpr ⟨small, hsmall, hlower, hasPart_trans hclient hpart⟩

theorem isDataAccessImport_of_forall
    (hall : ∀ client ∈ h.dataImports, lowercase client = client →
      other.isDataAccessImport client = true)
    (hfound : h.isDataAccessImport source = true) : other.isDataAccessImport source = true := by
  obtain ⟨client, hmem, hlower, hpart⟩ := isDataAccessImport_iff.mp hfound
  have hclient := hall client hmem hlower
  apply isDataAccessImport_of_hasPart hclient
  rwa [hlower]

/-- An import is found exactly by the clients that are written in lower case. So a table finds every
source that holds one of its clients if and only if each client holds one of these, whatever its own
case, and two tables find the same sources if and only if each finds the lower case clients of the
other. The case of keywords never counts. -/
theorem clients_found_iff_lowercase (h : Heuristics) :
    (∀ source, h.isDataAccessImport source = true ↔
      ∃ client ∈ h.dataImports, lowercase client = client ∧
        hasPart client (lowercase source) = true) ∧
    ((∀ source, IsAscii source → (∃ client ∈ h.dataImports, hasPart client source = true) →
        h.isDataAccessImport source = true) ↔
      ∀ client ∈ h.dataImports, IsAscii client →
        ∃ small ∈ h.dataImports, lowercase small = small ∧
          hasPart small (lowercase client) = true) ∧
    (∀ other : Heuristics,
      (∀ source, h.isDataAccessImport source = other.isDataAccessImport source) ↔
        (∀ client ∈ h.dataImports, lowercase client = client →
          other.isDataAccessImport client = true) ∧
        ∀ client ∈ other.dataImports, lowercase client = client →
          h.isDataAccessImport client = true) ∧
    ∀ other : Heuristics,
      (∀ c ∈ [Category.uiInteraction, .utility, .configuration],
        List.Forall₂ Recased (h.rule c).keywords (other.rule c).keywords) →
      ∀ name,
        (h.rule .uiInteraction).mentionedIn name = (other.rule .uiInteraction).mentionedIn name ∧
        h.isUtilityName name = other.isUtilityName name ∧
        h.isConfigurationName name = other.isConfigurationName name := by
  refine ⟨fun source => isDataAccessImport_iff, ⟨fun hfinds client hmem hascii => ?_,
    fun hclients source hascii hpart => ?_⟩, fun other => ⟨fun hsame => ⟨?_, ?_⟩,
    fun hboth source => ?_⟩, fun other hrecased name => ?_⟩
  · have hwhole : hasPart client client = true := hasPart_iff.mpr (List.infix_refl _)
    exact isDataAccessImport_iff.mp (hfinds client hascii ⟨client, hmem, hwhole⟩)
  · obtain ⟨client, hmem, hpart⟩ := hpart
    have hfound := isDataAccessImport_iff.mpr (hclients client hmem (hascii.of_hasPart hpart))
    exact isDataAccessImport_of_hasPart hfound (hascii.hasPart_lowercase hpart)
  · intro client hmem hlower
    rw [← hsame]
    exact isDataAccessImport_self hmem hlower
  · intro client hmem hlower
    rw [hsame]
    exact isDataAccessImport_self hmem hlower
  · rw [Bool.eq_iff_iff]
    exact ⟨isDataAccessImport_of_forall hboth.1, isDataAccessImport_of_forall hboth.2⟩
  · have hmentioned (c : Category) (hc : c ∈ [Category.uiInteraction, .utility, .configuration]) :
        (h.rule c).mentionedIn name = (other.rule c).mentionedIn name :=
      CategoryRule.mentionedIn_recased (hrecased c hc) name
    refine ⟨hmentioned _ (by decide), hmentioned _ (by decide), ?_⟩
    unfold isConfigurationName
    rw [hmentioned _ (by decide)]

/-- A client with capitals is found through another one that it holds, and is lost without it. -/
theorem clients_found_iff_lowercase_held :
    let utility (keywords : List String) := default.withRule .utility ⟨0.6, keywords⟩
    let h := { utility ["Format", "util"] with dataImports := ["MyDb", "db"] }
    let other := { utility ["fORMAT", "Util"] with dataImports := ["MyDb"] }
    IsAscii "@MyDb/client" ∧ hasPart "MyDb" "@MyDb/client" = true ∧
      h.isDataAccessImport "@MyDb/client" = true ∧
      (¬∀ source, h.isDataAccessImport source = other.isDataAccessImport source) ∧
      ∀ name, h.isUtilityName name = other.isUtilityName name := by
  intro utility h other
  have hascii : IsAscii "@MyDb/client" := by decide +kernel
  have hpart : hasPart "MyDb" "@MyDb/client" = true := by decide +kernel
  obtain ⟨-, hfinds, hsame, hnames⟩ := clients_found_iff_lowercase h
  have hdb : lowercase "db" = "db" := by decide +kernel
  have hclients : ∀ client ∈ h.dataImports, IsAscii client →
      ∃ small ∈ h.dataImports, lowercase small = small ∧
        hasPart small (lowercase client) = true := by
    intro client hclient _
    refine ⟨"db", by decide, hdb, ?_⟩
    rcases List.mem_pair.mp hclient with rfl | rfl <;> decide +kernel
  have hkeywords : ∀ c ∈ [Category.uiInteraction, .utility, .configuration],
      List.Forall₂ Recased (h.rule c).keywords (other.rule c).keywords := by
    have hsame (words : List String) : List.Forall₂ Recased words words :=
      List.forall₂_same.mpr fun _ _ => .inl rfl
    have hutility : List.Forall₂ Recased ["Format", "util"] ["fORMAT", "Util"] :=
      .cons (.inr ⟨by decide +kernel, by decide +kernel, by decide +kernel⟩)
        (.cons (.inr ⟨by decide +kernel, by decide +kernel, by decide +kernel⟩) .nil)
    simpa using ⟨hsame _, hutility, hsame _⟩
  refine ⟨hascii, hpart, hfinds.mpr hclients _ hascii ⟨"MyDb", by decide, hpart⟩, fun hall => ?_,
    fun name => (hnames other hkeywords name).2.1⟩
  have hlost := ((hsame other).mp hall).1 "db" (by decide) hdb
  exact absurd hlost (by decide +kernel)

/-- A client that is written with capitals is not found in its own name. -/
theorem not_forall_clients_found :
    ¬∀ (h : Heuristics) (source client : String), IsAscii source → client ∈ h.dataImports →
      hasPart client source = true → h.isDataAccessImport source = true := by
  intro hall
  have hfound := hall { default with dataImports := ["MyDb"] } "MyDb/client" "MyDb"
    (by decide +kernel) (by decide) (by decide +kernel)
  revert hfound
  decide +kernel

end Heuristics

end CodeAtlas
