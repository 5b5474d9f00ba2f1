import SecurityNoise.Foundation.Bytes
import SecurityNoise.Foundation.EarlyExit
import SecurityNoise.Foundation.Runs
import SecurityNoise.Framework.Hmac
import SecurityNoise.Framework.Symmetric
import SecurityNoise.Framework.Agreement
import SecurityNoise.External
import SecurityNoise.Kdf
import SecurityNoise.Cipher
import SecurityNoise.Symmetric
import SecurityNoise.Handshake
import SecurityNoise.Miniature
import SecurityNoise.Provider
import SecurityNoise.Tokens
import SecurityNoise.Calls
import SecurityNoise.Refinement
import SecurityNoise.Simulation
import SecurityNoise.Conformance
import SecurityNoise.Framework.LastDh
import SecurityNoise.Framework.IkMessages
import SecurityNoise.IkConformance
import SecurityNoise.Agreement
import SecurityNoise.Steps
import SecurityNoise.Turns
import SecurityNoise.Pinning
import SecurityNoise.Lifecycle
import SecurityNoise.Erasure
import SecurityNoise.Generations
import SecurityNoise.Nonces
import SecurityNoise.Duplex
import SecurityNoise.ExportGate
import SecurityNoise.Atomicity
import SecurityNoise.Sequences
import SecurityNoise.Protection
import SecurityNoise.Parsing
import SecurityNoise.Known
import SecurityNoise.Failures
import SecurityNoise.Binding
import SecurityNoise.Driving
import SecurityNoise.Identity
import SecurityNoise.HalfDuplex
import SecurityNoise.Stream
import SecurityNoise.Accord
import SecurityNoise.Contexts
import SecurityNoise.FieldNonces
import SecurityNoise.Foundation.Threads
import SecurityNoise.Exports
import SecurityNoise.Foundation.Moves
import SecurityNoise.Moves
import SecurityNoise.Foundation.Heap
import SecurityNoise.Plugin
import SecurityNoise.Handles
import SecurityNoise.Registrations
import SecurityNoise.Foundation.Epochs
import SecurityNoise.HostileLink
import SecurityNoise.Channel
import SecurityNoise.Rekeys
import SecurityNoise.WireFormat
