import KKChain.Accounts.Unlock
import KKChain.Api.EstimateGas
import KKChain.Consensus.Difficulty
import KKChain.Consensus.Seal
import KKChain.Core.BlockHash
import KKChain.Core.CachedSetHead
import KKChain.Core.FailedWrite
import KKChain.Core.LogBloom
import KKChain.Core.LookupRun
import KKChain.Core.Schema
import KKChain.Core.StateRoot
import KKChain.Core.TotalDifficulty
import KKChain.Miner.Context
import KKChain.Miner.Worker
import KKChain.P2P.ChainMessage
import KKChain.P2P.Discovery
import KKChain.P2P.Envelope
import KKChain.P2P.Framing
import KKChain.State.CommitRoot
import KKChain.State.Copy
import KKChain.Sync.Fetcher
import KKChain.Trie.Codec
import KKChain.Trie.Session
import KKChain.TxPool.Consumers
import KKChain.TxPool.Reset
import KKChain.Vm.Analysis
import KKChain.Vm.Arithmetic
import KKChain.Vm.Create
import KKChain.Vm.ModExp
