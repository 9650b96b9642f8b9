import IoTFS.Oic.Conversion
import IoTFS.Plugins.Manager
import Mathlib.Algebra.Group.Nat.Defs

/-!
# The platform configuration

`loadPlatformConfiguration` starts from default values and overwrites each of five from the
configuration file, in a `try` block of its own: an entry that is missing, or that does not
convert, leaves its value alone.
-/

namespace IoTFS.Oic

open Plugins (Ptree)

/-- `OCConnectivityType`, as far as the table names it. -/
inductive OCConnectivityType
  | CT_DEFAULT
  | CT_ADAPTER_IP
  | CT_ADAPTER_GATT_BTLE
  | CT_ADAPTER_RFCOMM_BTEDR
  | CT_FLAG_SECURE
  | CT_IP_USE_V6
  | CT_IP_USE_V4
  | CT_SCOPE_INTERFACE
  | CT_SCOPE_LINK
  | CT_SCOPE_REALM
  | CT_SCOPE_ADMIN
  | CT_SCOPE_SITE
  | CT_SCOPE_ORG
  | CT_SCOPE_GLOBAL
  deriving DecidableEq

/-- `QualityOfService`. -/
inductive QualityOfService
  | LowQos
  | MidQos
  | HighQos
  | NaQos
  deriving DecidableEq

/-- `ServiceType`, as far as the sources name it. -/
inductive ServiceType
  | InProc
  deriving DecidableEq

/-- `ModeType`, as far as the sources name it. -/
inductive ModeType
  | Client
  | Server
  deriving DecidableEq

/-- `PlatformConfig`. -/
structure PlatformConfig where
  serviceType : ServiceType
  mode : ModeType
  serverConnectivity : OCConnectivityType
  clientConnectivity : OCConnectivityType
  ipAddress : Str
  port : UInt16
  QoS : QualityOfService
  deriving DecidableEq

/-- `map_connectivity`. -/
def map_connectivity : List (Str × OCConnectivityType) := [
  ("default".toList, .CT_DEFAULT),
  ("adapter_ip".toList, .CT_ADAPTER_IP),
  ("adapter_gatt_btle".toList, .CT_ADAPTER_GATT_BTLE),
  ("adapter_rfcomm_btedr".toList, .CT_ADAPTER_RFCOMM_BTEDR),
  ("flag_secure".toList, .CT_FLAG_SECURE),
  ("ip_use_v6".toList, .CT_IP_USE_V6),
  ("ip_use_v4".toList, .CT_IP_USE_V4),
  ("scope_interface".toList, .CT_SCOPE_INTERFACE),
  ("scope_link".toList, .CT_SCOPE_LINK),
  ("scope_realm".toList, .CT_SCOPE_REALM),
  ("scope_admin".toList, .CT_SCOPE_ADMIN),
  ("scope_site".toList, .CT_SCOPE_SITE),
  ("scope_org".toList, .CT_SCOPE_ORG),
  ("scope_global".toList, .CT_SCOPE_GLOBAL)]

/-- `map_qos`. -/
def map_qos : List (Str × QualityOfService) := [
  ("low".toList, .LowQos),
  ("mid".toList, .MidQos),
  ("HighQos".toList, .HighQos),
  ("NaQos".toList, .NaQos)]

/-- The magnitude of an unsigned number that has its sign taken off. White space behind it is
skipped, anything else makes the text bad data. -/
def readMagnitude (negative : Bool) (s : Str) : Option UInt16 :=
  let digits := s.takeWhile Char.isDigit
  let rest := s.dropWhile Char.isDigit
  (readDecimal digits).bind fun n =>
    if n < 2 ^ 16 ∧ rest.dropWhile isSpace = [] then
      some (if negative then -UInt16.ofNat n else UInt16.ofNat n)
    else none

/-- `get<uint16_t>` of a text: stream extraction skips white space and takes an optional
sign and decimal digits; a number that fits is negated modulo the machine type. -/
def readUInt16 (s : Str) : Option UInt16 :=
  match s.dropWhile isSpace with
  | '-' :: ds => readMagnitude true ds
  | '+' :: ds => readMagnitude false ds
  | ds => readMagnitude false ds

/-- `properties.get<std::string>` of an entry below `PlatformConfig`. -/
def configured (properties : Ptree) (key : Str) : Option Str :=
  (properties.getChild "PlatformConfig".toList).bind fun t => t.get key

/-- One `try` block of `overwriteDefaultConfigure`. -/
def overwrite {α : Type} (properties : Ptree) (key : Str) (convert : Str → Option α)
    (assign : α → PlatformConfig → PlatformConfig) (cfg : PlatformConfig) : PlatformConfig :=
  match (configured properties key).bind convert with
  | some a => assign a cfg
  | none => cfg

/-- The block of the server connectivity. -/
def overwriteServerConnectivity (properties : Ptree) : PlatformConfig → PlatformConfig :=
  overwrite properties "ServerConnectivity".toList (List.lookup · map_connectivity)
    fun a cfg => { cfg with serverConnectivity := a }

/-- The block of the client connectivity. -/
def overwriteClientConnectivity (properties : Ptree) : PlatformConfig → PlatformConfig :=
  overwrite properties "ClientConnectivity".toList (List.lookup · map_connectivity)
    fun a cfg => { cfg with clientConnectivity := a }

/-- The block of the address. -/
def overwriteIP (properties : Ptree) : PlatformConfig → PlatformConfig :=
  overwrite properties "IP".toList some fun a cfg => { cfg with ipAddress := a }

/-- The block of the port. -/
def overwritePort (properties : Ptree) : PlatformConfig → PlatformConfig :=
  overwrite properties "Port".toList readUInt16 fun a cfg => { cfg with port := a }

/-- The block of the quality of service. -/
def overwriteQoS (properties : Ptree) : PlatformConfig → PlatformConfig :=
  overwrite properties "QoS".toList (List.lookup · map_qos) fun a cfg => { cfg with QoS := a }

/-- `OICInfoProvider::overwriteDefaultConfigure`. -/
def overwriteDefaultConfigure (properties : Ptree) (cfg : PlatformConfig) : PlatformConfig :=
  let cfg := overwriteServerConnectivity properties cfg
  let cfg := overwriteClientConnectivity properties cfg
  let cfg := overwriteIP properties cfg
  let cfg := overwritePort properties cfg
  overwriteQoS properties cfg

/-- The default values; the constructor of the library sets the connectivities. -/
def defaultConfig (connectivity : OCConnectivityType) : PlatformConfig where
  serviceType := .InProc
  mode := .Client
  serverConnectivity := connectivity
  clientConnectivity := connectivity
  ipAddress := "0.0.0.0".toList
  port := 0
  QoS := .LowQos

/-- `OICInfoProvider::loadPlatformConfiguration`: a file that cannot be read leaves the
properties empty. -/
def loadPlatformConfiguration (connectivity : OCConnectivityType) (readXml : Option Ptree) :
    PlatformConfig :=
  overwriteDefaultConfigure (readXml.getD (.node [] [])) (defaultConfig connectivity)

example : readUInt16 [' ', '-', '1', '\n'] = some 65535 := by decide

end IoTFS.Oic
