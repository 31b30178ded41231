import WasmContracts.L1Data.Double
import WasmContracts.L1Data.HashMap
import WasmContracts.L1Data.GslMatrix
import WasmContracts.L1Data.Outcome
import WasmContracts.L2Ledger.Interface
import WasmContracts.L2Ledger.NonOptimized
import WasmContracts.L2Ledger.Optimized
import WasmContracts.L2Ledger.Split
import WasmContracts.L2Network.Layers
import WasmContracts.L2Network.Network
import WasmContracts.L2Network.Gradient
import WasmContracts.L2Network.Training
import WasmContracts.L2Network.Classification
import WasmContracts.L2Network.Random
import WasmContracts.L2Network.Init
import WasmContracts.L2Network.Normalize
import WasmContracts.L3Runs.Balances
import WasmContracts.L3Runs.Refinement
import WasmContracts.Bugs.NaiveRevert
import WasmContracts.Bugs.Recalibration
import WasmContracts.Bugs.InferenceRelu
import WasmContracts.Bugs.BackpropMultiplier
