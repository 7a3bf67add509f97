import FiscoSmart.Codec.AbiRoundTrip
import FiscoSmart.Codec.AbiSafety
import FiscoSmart.Codec.ScaleSafety
import FiscoSmart.Consensus.BlockValidator
import FiscoSmart.Consensus.LedgerStorage
import FiscoSmart.Consensus.Reproposal
import FiscoSmart.Consensus.Sealing
import FiscoSmart.Crypto.MerkleProofs
import FiscoSmart.Executor.FrameAtomicity
import FiscoSmart.Executor.StackFlowRun
import FiscoSmart.Executor.TxDag
import FiscoSmart.Front.FrontMessage
import FiscoSmart.Gateway.P2PMessage
import FiscoSmart.Lightnode.Rpc
import FiscoSmart.Precompiled.BfsCalls
import FiscoSmart.Precompiled.Consensus
import FiscoSmart.Precompiled.ContractAuth
import FiscoSmart.Precompiled.DagTransfer
import FiscoSmart.Precompiled.DeployAuth
import FiscoSmart.Precompiled.Inference
import FiscoSmart.Rpc.EventSub
import FiscoSmart.Scheduler.BlockCommitGuarantees
import FiscoSmart.Scheduler.BlockPrepare
import FiscoSmart.Scheduler.BlockQueueRun
import FiscoSmart.Scheduler.DmcFrameRun
import FiscoSmart.Storage.BatchReads
import FiscoSmart.Storage.StateLayers
import FiscoSmart.Storage.StorageCommit
import FiscoSmart.Sync.DownloadingBuffer
import FiscoSmart.Sync.DownloadingProgress
import FiscoSmart.Sync.RequestBlocks
import FiscoSmart.TxPool.Restart
import FiscoSmart.TxPool.VerifyBlock
