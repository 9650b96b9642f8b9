import IoTFS.Files.Numerals
import IoTFS.Oic.Configuration

/-!
# What the configuration file says

The port is taken from exactly the decimal numerals of a machine word, padded and signed. A
file that states a configuration is loaded as that configuration, and each value depends on
its own entry alone.
-/

namespace IoTFS.Oic

open Plugins (Ptree)

/-! ### The port -/

/-- The text is all white space. -/
def Blank (s : Str) : Prop := ∀ c ∈ s, isSpace c = true

/-- White space ends a run of digits. -/
theorem takeWhile_isDigit {ds post : Str} (hds : ∀ c ∈ ds, c.isDigit = true)
    (hpost : Blank post) :
    (ds ++ post).takeWhile Char.isDigit = ds ∧ (ds ++ post).dropWhile Char.isDigit = post := by
  rw [List.takeWhile_append_of_pos hds, List.dropWhile_append_of_pos hds]
  cases post with
  | nil => simp
  | cons c post =>
    have hc : c.isDigit = false := by
      by_contra hc
      have hspace := hpost c (List.mem_cons_self ..)
      rw [isSpace_of_isDigit (by simpa using hc)] at hspace
      cases hspace
    simp [hc]

/-- A magnitude is read from digits and white space. -/
theorem readMagnitude_eq_some_iff {negative : Bool} {s : Str} {p : UInt16} :
    readMagnitude negative s = some p ↔ ∃ ds post n, s = ds ++ post ∧ Digits ds n ∧ Blank post ∧
      n < 2 ^ 16 ∧ p = if negative then -UInt16.ofNat n else UInt16.ofNat n := by
  constructor
  · intro h
    obtain ⟨n, hn, hrest⟩ := Option.bind_eq_some_iff.mp h
    split at hrest
    · rename_i hcond
      cases hrest
      exact ⟨s.takeWhile Char.isDigit, s.dropWhile Char.isDigit, n,
        List.takeWhile_append_dropWhile.symm, readDecimal_eq_some_iff.mp hn,
        List.dropWhile_eq_nil_iff.mp hcond.2, hcond.1, rfl⟩
    · cases hrest
  · rintro ⟨ds, post, n, rfl, hds, hpost, hn, rfl⟩
    obtain ⟨htake, hdrop⟩ := takeWhile_isDigit hds.2.1 hpost
    simp only [readMagnitude, htake, hdrop, readDecimal_eq_some_iff.mpr hds, Option.bind_some]
    exact if_pos ⟨hn, List.dropWhile_eq_nil_iff.mpr hpost⟩

/-- What follows white space and a sign is taken as a magnitude. -/
theorem readUInt16_eq (s : Str) : readUInt16 s =
    readMagnitude (splitSign (s.dropWhile isSpace)).1 (splitSign (s.dropWhile isSpace)).2 := by
  unfold readUInt16
  split
  · rename_i ds hds
    rw [hds]
    rfl
  · rename_i ds hds
    rw [hds]
    rfl
  · rename_i hminus hplus
    rw [splitSign.eq_3 _ hminus hplus]

/-- White space, an optional sign, decimal digits of a number below `2 ^ 16`, and white space.
A minus negates the number modulo `2 ^ 16`. -/
def PortText (s : Str) (p : UInt16) : Prop :=
  ∃ pre sign negative ds post n, s = pre ++ (sign ++ (ds ++ post)) ∧
    Blank pre ∧ Sign sign negative ∧ Digits ds n ∧ Blank post ∧ n < 2 ^ 16 ∧
      p = if negative then -UInt16.ofNat n else UInt16.ofNat n

/-- These are the texts that are read. -/
theorem readUInt16_eq_some_iff {s : Str} {p : UInt16} :
    readUInt16 s = some p ↔ PortText s p := by
  rw [readUInt16_eq, readMagnitude_eq_some_iff]
  constructor
  · rintro ⟨ds, post, n, hds, hdigits, hrest⟩
    obtain ⟨sign, hsign, hs⟩ := sign_splitSign (s.dropWhile isSpace)
    rw [hds] at hs
    refine ⟨s.takeWhile isSpace, sign, _, ds, post, n, ?_, fun c hc => List.mem_takeWhile_imp hc,
      hsign, hdigits, hrest⟩
    rw [← hs, List.takeWhile_append_dropWhile]
  · rintro ⟨pre, sign, negative, ds, post, n, rfl, hpre, hsign, hdigits, hrest⟩
    have hdrop : (pre ++ (sign ++ (ds ++ post))).dropWhile isSpace = sign ++ (ds ++ post) := by
      rw [List.dropWhile_append_of_pos hpre]
      cases hsign with
      | plus | minus => rfl
      | none =>
        obtain ⟨c, cs, rfl⟩ := List.exists_cons_of_ne_nil hdigits.1
        simp [isSpace_of_isDigit (hdigits.2.1 c (List.mem_cons_self ..))]
    rw [hdrop, splitSign_signed hsign hdigits]
    exact ⟨ds, post, n, rfl, hdigits, hrest⟩

/-- A decimal port is read back. -/
theorem readUInt16_decimal (p : UInt16) {pre post : Str} (hpre : Blank pre) (hpost : Blank post) :
    readUInt16 (pre ++ (decimal p.toNat ++ post)) = some p :=
  readUInt16_eq_some_iff.mpr ⟨pre, [], false, _, post, p.toNat, rfl, hpre, .none,
    digits_decimal _, hpost, p.toNat_lt, (UInt16.ofNat_toNat (x := p)).symm⟩

/-! ### The values of the file -/

/-- A block sets its value to what the file says, or to what it was. -/
theorem overwrite_eq {α : Type} {properties : Ptree} {key : Str} {convert : Str → Option α}
    {assign : α → PlatformConfig → PlatformConfig} {cfg : PlatformConfig} {a : α}
    (h : assign a cfg = cfg) : overwrite properties key convert assign cfg =
      assign (((configured properties key).bind convert).getD a) cfg := by
  unfold overwrite
  cases (configured properties key).bind convert with
  | none => exact h.symm
  | some a' => rfl

/-- Each value is what its own entry says, or the default. -/
theorem loadPlatformConfiguration_eq (connectivity : OCConnectivityType)
    (readXml : Option Ptree) :
    let properties := readXml.getD (.node [] [])
    loadPlatformConfiguration connectivity readXml =
      { serviceType := .InProc
        mode := .Client
        serverConnectivity := ((configured properties "ServerConnectivity".toList).bind
          (List.lookup · map_connectivity)).getD connectivity
        clientConnectivity := ((configured properties "ClientConnectivity".toList).bind
          (List.lookup · map_connectivity)).getD connectivity
        ipAddress := (configured properties "IP".toList).getD "0.0.0.0".toList
        port := ((configured properties "Port".toList).bind readUInt16).getD 0
        QoS := ((configured properties "QoS".toList).bind (List.lookup · map_qos)).getD
          .LowQos } := by
  intro properties
  rw [loadPlatformConfiguration, overwriteDefaultConfigure, defaultConfig,
    overwriteServerConnectivity, overwrite_eq (a := connectivity) rfl,
    overwriteClientConnectivity, overwrite_eq (a := connectivity) rfl,
    overwriteIP, overwrite_eq (a := "0.0.0.0".toList) rfl, overwritePort, overwrite_eq (a := 0) rfl,
    overwriteQoS, overwrite_eq (a := .LowQos) rfl, Option.bind_fun_some]

/-- The port is what its entry says, where that is the text of a port: a negative one is taken
modulo `2 ^ 16`. Without an entry, and with a text of any other form, it is left at 0, for
which any free port is used. -/
theorem port_of_configuration (connectivity : OCConnectivityType) (t : Ptree) (p : UInt16) :
    (loadPlatformConfiguration connectivity (some t)).port = p ↔
      (∃ s, configured t "Port".toList = some s ∧ PortText s p) ∨
        p = 0 ∧ ∀ s, configured t "Port".toList = some s → ∀ q, ¬ PortText s q := by
  rw [loadPlatformConfiguration_eq]
  simp only [Option.getD_some, ← readUInt16_eq_some_iff]
  cases hentry : configured t "Port".toList with
  | none => simp [eq_comm]
  | some s =>
    cases hport : readUInt16 s with
    | none => simp [hport, eq_comm]
    | some q => simp [hport]

/-! ### A file that states a configuration -/

/-- The first name of a value in a table. -/
def nameOf {α : Type} [DecidableEq α] (table : List (Str × α)) (a : α) : Str :=
  ((table.find? fun entry => entry.2 = a).map Prod.fst).getD []

theorem lookup_connectivity (c : OCConnectivityType) :
    List.lookup (nameOf map_connectivity c) map_connectivity = some c := by
  cases c <;> decide

theorem lookup_qos (c : QualityOfService) : List.lookup (nameOf map_qos c) map_qos = some c := by
  cases c <;> decide

/-- An element with a text. -/
def element (name : String) (text : Str) : Str × Ptree := (name.toList, .node text [])

/-- A configuration file for a configuration, its port padded. -/
def render (pre post : Str) (cfg : PlatformConfig) : Ptree :=
  .node [] [("PlatformConfig".toList, .node [] [
    element "ServerConnectivity" (nameOf map_connectivity cfg.serverConnectivity),
    element "ClientConnectivity" (nameOf map_connectivity cfg.clientConnectivity),
    element "IP" cfg.ipAddress,
    element "Port" (pre ++ (decimal cfg.port.toNat ++ post)),
    element "QoS" (nameOf map_qos cfg.QoS)])]

/-- A file that states a configuration by the names of the tables is loaded as that
configuration, whatever the address and however the port is padded; without a file that can
be read all values are the defaults. A value depends on its own entry only: one that is
missing or cannot be taken leaves the other values to what their entries say. -/
theorem configuration_of_file (connectivity : OCConnectivityType) :
    (∀ pre post cfg, Blank pre → Blank post → cfg.mode = .Client →
        loadPlatformConfiguration connectivity (some (render pre post cfg)) = cfg) ∧
      loadPlatformConfiguration connectivity none = defaultConfig connectivity ∧
      ∀ t t' : Ptree, ∀ key, (∀ k ≠ key, configured t k = configured t' k) →
        let cfg := loadPlatformConfiguration connectivity (some t)
        let cfg' := loadPlatformConfiguration connectivity (some t')
        (key ≠ "ServerConnectivity".toList → cfg.serverConnectivity = cfg'.serverConnectivity) ∧
          (key ≠ "ClientConnectivity".toList →
            cfg.clientConnectivity = cfg'.clientConnectivity) ∧
          (key ≠ "IP".toList → cfg.ipAddress = cfg'.ipAddress) ∧
          (key ≠ "Port".toList → cfg.port = cfg'.port) ∧
          (key ≠ "QoS".toList → cfg.QoS = cfg'.QoS) := by
  refine ⟨fun pre post cfg hpre hpost hmode => ?_, ?_, fun t t' key h => ?_⟩
  · have hserver : configured (render pre post cfg) "ServerConnectivity".toList =
        some (nameOf map_connectivity cfg.serverConnectivity) := rfl
    have hclient : configured (render pre post cfg) "ClientConnectivity".toList =
        some (nameOf map_connectivity cfg.clientConnectivity) := rfl
    have hip : configured (render pre post cfg) "IP".toList = some cfg.ipAddress := rfl
    have hport : configured (render pre post cfg) "Port".toList =
        some (pre ++ (decimal cfg.port.toNat ++ post)) := rfl
    have hqos : configured (render pre post cfg) "QoS".toList =
        some (nameOf map_qos cfg.QoS) := rfl
    rw [loadPlatformConfiguration_eq]
    simp only [Option.getD_some, hserver, hclient, hip, hport, hqos, Option.bind_some,
      lookup_connectivity, lookup_qos, readUInt16_decimal cfg.port hpre hpost]
    obtain ⟨⟨⟩, mode, _, _, _, _, _⟩ := cfg
    cases hmode
    rfl
  · rw [loadPlatformConfiguration_eq]
    rfl
  · simp only [loadPlatformConfiguration_eq, Option.getD_some]
    refine ⟨fun hk => ?_, fun hk => ?_, fun hk => ?_, fun hk => ?_, fun hk => ?_⟩ <;>
      rw [h _ hk.symm]

/-- The file in `bin` states the defaults. -/
example (connectivity : OCConnectivityType) :
    loadPlatformConfiguration connectivity (some (.node [] [("PlatformConfig".toList, .node []
      [element "IP" "0.0.0.0".toList, element "Port" "0".toList])])) =
      defaultConfig connectivity := by
  cases connectivity <;> decide

end IoTFS.Oic
