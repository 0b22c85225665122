import MeasuredBoot.Text.Radix

/-!
# Event types

The types of the entries of an event log, as the platform firmware profile numbers them. A number
without a name is written in base sixteen.
-/
namespace MeasuredBoot

/-- The type of an event. -/
structure EventType where
  code : Int
deriving DecidableEq

namespace EventType

def postCode : EventType := ⟨0x1⟩
def noAction : EventType := ⟨0x3⟩
def separator : EventType := ⟨0x4⟩
def crtmContents : EventType := ⟨0x7⟩
def crtmVersion : EventType := ⟨0x8⟩
def firmwareBlob : EventType := ⟨0x80000008⟩
def firmwareBlob2 : EventType := ⟨0x8000000A⟩

/-- The names, each with its number. -/
def names : List (Int × String) := [
  (0x0, "EV_PREBOOT_CERT"), (0x1, "EV_POST_CODE"), (0x2, "EV_UNUSED"), (0x3, "EV_NO_ACTION"),
  (0x4, "EV_SEPARATOR"), (0x5, "EV_ACTION"), (0x6, "EV_EVENT_TAG"), (0x7, "EV_S_CRTM_CONTENTS"),
  (0x8, "EV_S_CRTM_VERSION"), (0x9, "EV_CPU_MICROCODE"), (0xA, "EV_PLATFORM_CONFIG_FLAGS"),
  (0xB, "EV_TABLE_OF_DEVICES"), (0xC, "EV_COMPACT_HASH"), (0xD, "EV_IPL"),
  (0xE, "EV_IPL_PARTITION_DATA"), (0xF, "EV_NONHOST_CODE"), (0x10, "EV_NONHOST_CONFIG"),
  (0x11, "EV_NONHOST_INFO"), (0x12, "EV_OMIT_BOOT_DEVICE_EVENTS"),
  (0x80000000, "EV_EFI_EVENT_BASE"), (0x80000001, "EV_EFI_VARIABLE_DRIVER_CONFIG"),
  (0x80000002, "EV_EFI_VARIABLE_BOOT"), (0x80000003, "EV_EFI_BOOT_SERVICES_APPLICATION"),
  (0x80000004, "EV_EFI_BOOT_SERVICES_DRIVER"), (0x80000005, "EV_EFI_RUNTIME_SERVICES_DRIVER"),
  (0x80000006, "EV_EFI_GPT_EVENT"), (0x80000007, "EV_EFI_ACTION"),
  (0x80000008, "EV_EFI_PLATFORM_FIRMWARE_BLOB"), (0x80000009, "EV_EFI_HANDOFF_TABLES"),
  (0x8000000A, "EV_EFI_PLATFORM_FIRMWARE_BLOB2"), (0x800000E0, "EV_EFI_VARIABLE_AUTHORITY")]

/-- The name of the type, or its number. -/
def name (t : EventType) : String := (names.lookup t.code).getD ("0x" ++ Text.hex t.code)

end EventType
end MeasuredBoot
