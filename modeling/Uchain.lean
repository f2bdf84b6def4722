import Uchain.Primitives.Proof.Hex
import Uchain.Smt.Proof.Addressed
import Uchain.Smt.Proof.Atomic
import Uchain.Smt.Proof.Codec
import Uchain.Smt.Proof.Total
import Uchain.Types.Proof.Pack
import Uchain.State.Proof.Failed
import Uchain.State.Proof.KvDB
import Uchain.State.Proof.Nonces
import Uchain.State.Proof.Readback
import Uchain.Consensus.Proof.Prepare
import Uchain.Consensus.Proof.Retarget
import Uchain.Consensus.Proof.Reward
import Uchain.Blockchain.Proof.Agreement
import Uchain.Blockchain.Proof.GetBlocks
import Uchain.Blockchain.Proof.LevelIndex
import Uchain.Vm.Proof.Conserve
import Uchain.Vm.Proof.Create
import Uchain.Vm.Proof.Sequential
import Uchain.Vm.Proof.StorageMap
import Uchain.TxPool.Proof.Affordable
import Uchain.TxPool.Proof.Executable
import Uchain.TxPool.Proof.Fairness
import Uchain.TxPool.Proof.Locals
import Uchain.TxPool.Proof.NextNonce
import Uchain.TxPool.Proof.PricedSet
import Uchain.TxPool.Proof.QueueLimit
import Uchain.TxPool.Proof.Reinject
import Uchain.TxPool.Proof.Room
import Uchain.TxPool.Proof.Status
import Uchain.Miner.Worker
import Uchain.P2p.Proof.NetworkHead
import Uchain.P2p.Proof.Total
import Uchain.Node.Proof.Search
