import Dert.Store.VhtLaws

namespace Dert.Vht

open Library Library.Probe

variable {keySize valSize : Nat} {hash : Bytes keySize → UInt64}
  {salt : Bytes vhtHashSaltLenExpected} {t t' : Vht keySize valSize} {key : Bytes keySize}
  {src : Bytes valSize} {iterate : UInt32}

section Walk

def walk (table : Vht keySize valSize) (iterate : UInt32) : Nat → UInt32 → List Nat
  | 0, _ => []
  | n + 1, offset => vhtHashSlot table offset :: walk table iterate n (vhtHashNext offset iterate)

end Walk

section Capacity

variable {set : Nat → Vht keySize valSize → Bytes keySize → Bytes valSize →
    Option (Vht keySize valSize × Ret)} {ret : Ret}

end Capacity

section Probes

variable (t iterate) (offset : UInt32)

variable {t iterate} (hash salt)

end Probes

end Dert.Vht
