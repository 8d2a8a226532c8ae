import BlockCalculus.Bytes

/-! Content addresses: the 32 bytes of a digest. -/

namespace BlockCalculus

structure Address where
  bytes : Bytes
  length_eq : bytes.length = 32
  deriving DecidableEq

namespace Address

instance : Inhabited Address :=
  ⟨⟨List.replicate 32 0, List.length_replicate⟩⟩

def ofBytes? (bytes : Bytes) : Option Address :=
  if h : bytes.length = 32 then some ⟨bytes, h⟩ else none

def hex (a : Address) : String :=
  a.bytes.hex

/-- Reads exactly 64 hexadecimal digits of either case. -/
def ofHexChars? (digits : List Char) : Option Address := do
  ofBytes? (← Bytes.ofHexChars? digits)

def ofHex? (text : String) : Option Address :=
  ofHexChars? text.toList

@[simp] theorem ofBytes?_bytes (a : Address) : ofBytes? a.bytes = some a := by
  simp [ofBytes?, a.length_eq]

theorem bytes_of_ofBytes? {bytes : Bytes} {a : Address} (h : ofBytes? bytes = some a) :
    a.bytes = bytes := by
  simp only [ofBytes?] at h
  split at h
  · exact (congrArg Address.bytes (Option.some.inj h)).symm
  · cases h

end Address

end BlockCalculus
