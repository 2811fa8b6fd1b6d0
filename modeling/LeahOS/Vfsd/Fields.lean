import LeahOS.Lib.Bytes
import LeahOS.Vfsd.Block

/-!
# Little-endian fields (`rd16`, `rd32`, `wr16w`, `wr32w`)
-/

namespace LeahOS.Vfsd
open Lib

def rd16 (p : Block) (off : Nat) : Nat := getLE p off 2

def rd32 (p : Block) (off : Nat) : Nat := getLE p off 4

/-- `wr16w`: the low sixteen bits of the value. -/
def wr16w (p : Block) (off v : Nat) : Block := setLE p off v 2

/-- `wr32w`: the low thirty-two bits of the value. -/
def wr32w (p : Block) (off v : Nat) : Block := setLE p off v 4

theorem rd16_lt (p : Block) (off : Nat) : rd16 p off < 2 ^ 16 := getLE_lt p off 2

theorem rd32_lt (p : Block) (off : Nat) : rd32 p off < 2 ^ 32 := getLE_lt p off 4

theorem rd16_wr16w_self (p : Block) (off v : Nat) : rd16 (wr16w p off v) off = v % 2 ^ 16 :=
  getLE_setLE_self p off v 2

theorem rd32_wr32w_self (p : Block) (off v : Nat) : rd32 (wr32w p off v) off = v % 2 ^ 32 :=
  getLE_setLE_self p off v 4

variable {off off' v : Nat} {p : Block}

theorem rd16_wr16w_of_disjoint (hApart : off' + 2 ≤ off ∨ off + 2 ≤ off') :
    rd16 (wr16w p off v) off' = rd16 p off' :=
  getLE_setLE_of_disjoint hApart

theorem rd32_wr16w_of_disjoint (hApart : off' + 4 ≤ off ∨ off + 2 ≤ off') :
    rd32 (wr16w p off v) off' = rd32 p off' :=
  getLE_setLE_of_disjoint hApart

theorem rd16_wr32w_of_disjoint (hApart : off' + 2 ≤ off ∨ off + 4 ≤ off') :
    rd16 (wr32w p off v) off' = rd16 p off' :=
  getLE_setLE_of_disjoint hApart

theorem rd32_wr32w_of_disjoint (hApart : off' + 4 ≤ off ∨ off + 4 ≤ off') :
    rd32 (wr32w p off v) off' = rd32 p off' :=
  getLE_setLE_of_disjoint hApart

end LeahOS.Vfsd
