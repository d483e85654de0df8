import PmBackend.CallStores
import PmBackend.RecoveryGaps

set_option autoImplicit false

namespace PmBackend

open ByteMemory DeferredLog

section Slots

variable {h : Handle} {t t' : Ledger} {call : Call} {ret : Return} {s s' : Store} {m : Mem} {i j : Nat}
  {tx : Tx Nat PartialBytes} {stands : Bool}

end Slots

section Recovered

variable {h : Handle} {t t' : Ledger} {call : Call} {ret : Return} {m : Mem} {i id : Nat} {tx : Tx Nat PartialBytes}
  {map : TxMap Nat PartialBytes} {stands : Bool}

end Recovered

end PmBackend
