import Uchain.Blockchain.ChainState
import Uchain.Types.Sample

/-!
# A concrete chain

Blocks on the main network, for the stand-ins of `Sample`. The account `0` has the balance of the
genesis block; it and the account `5` pay only to themselves.

`b1` and `b2` are followed by `a3` and, beside it, `b3`; on `b3` stand `f4`, `b5` and `b6`. Two more
branches start at the genesis block: `d1` with `d2`, and `e1`.
-/

namespace Uchain.SampleChain

open Lib
open Sample

def noVm : Vm :=
  ⟨fun _ _ _ _ => .error (.message ""), fun _ _ _ _ => .error (.message ""),
    fun _ _ => .error (.message ""), .zero⟩

def setup : Setup where
  consensus := ⟨.mainnet⟩
  vm := noVm
  builtIn := []
  packageAddress _ _ := .error (.message "")
  createApplication _ _ _ := .error (.message "")
  loadApplication _ _ := .error (.message "")
  order := id
  perm := List.Perm.refl

/-- An open channel, a pool that is always repacked, and the first second of the clock. -/
def env : Env where
  order _ := .insertion
  now _ := 0
  send _ := true
  repack _ _ := .ok ()

def header (parentHash txRoot stateRoot coinbase : Nat) (level : UInt32) : BlockHeader where
  parentHash := .ofNum 32 parentHash
  receiptHash := .zero
  txRoot := .ofNum 32 txRoot
  stateRoot := .ofNum 32 stateRoot
  mixNonce := 0
  coinbase := address coinbase
  difficulty := 486604799
  chainId := 0
  level := level
  time := 0
  nonce := 0

/-- The account `0` sets its nonce to zero, and the account `5` appears. -/
def b1 : Block where
  header := header 6012664992282501931134501068132417589752768505271123772241
    54168027516355756207093197114672416347694414427858396541712527175306992490256
    41491898136565709702371801504761213210139224190591551724359716810796181298118 5 1
  transactions := [pay 0 0 (0 - 1) 0 0, pay 5 5 1 0 0]

/-- The account `0` pays three rewards as a fee and gets one. -/
def b2 : Block where
  header := header 4883895482578340723516539015388919278246554253215683693719
    94910791942927143842387074862537665248846973601552032390408616146825246324935
    26873153985039171809295471375238069265300178372304658695704437872913634071466 0 2
  transactions := [pay 0 0 (0 - 1) 0 30000000000]

def a3 : Block where
  header := header 3818577475780393128071649860994533561611474300179384577759 0
    84541192571151968316368225833134481111836718193197926424162023518174427788518 7 3
  transactions := []

def b3 : Block where
  header := header 3818577475780393128071649860994533561611474300179384577759 0
    68977336833265396497102694331492247077461397535700733605821529085592518474090 0 3
  transactions := []

/-- The state root is that of `b1` again. -/
def f4 : Block where
  header := header 1585468154829485026693518204532529852347560648923462895443 0
    41491898136565709702371801504761213210139224190591551724359716810796181298118 0 4
  transactions := []

def b5 : Block where
  header := header 1265298605339232076410853171548379264569678491979205847078
    52840962619862459200554398144931450904042757248090988500361946026623181504499
    41491898136565709702371801504761213210139224190591551724359716810796181298118 5 5
  transactions := [pay 5 5 1 0 0]

def b6 : Block where
  header := header 4174251940111378207331418279024490573290401239071283264777 0
    87924858302649184176527150407188326126444808576626213144340357112463593095567 5 6
  transactions := []

def d1 : Block where
  header := header 6012664992282501931134501068132417589752768505271123772241 0
    30076715480954680744358304755021727851177447092820813150444489038479592729998 8 1
  transactions := []

def d2 : Block where
  header := header 6255090610988550956444533468765127874337928239635775342164 0
    71477202853376085183275658530591734261970408649341150815707488250980851451146 8 2
  transactions := []

def e1 : Block where
  header := header 6012664992282501931134501068132417589752768505271123772241 0
    98064519840712782166745019944034251087075063042036827987128221816576253643862 7 1
  transactions := []

/-- Like `e1`, with another state root. -/
def wrongRoot : Block := { e1 with header := { e1.header with stateRoot := .zero } }

end Uchain.SampleChain
