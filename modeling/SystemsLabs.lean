import SystemsLabs.Cachelab.Arguments
import SystemsLabs.Cachelab.Decomposition
import SystemsLabs.Cachelab.Inclusion
import SystemsLabs.Cachelab.Independence
import SystemsLabs.Cachelab.Simulation
import SystemsLabs.Cachelab.Trace
import SystemsLabs.Cachelab.Trans
import SystemsLabs.Kernellab.PidWrite
import SystemsLabs.Lib.Fields
import SystemsLabs.Lib.KBest
import SystemsLabs.Lib.LinkedList
import SystemsLabs.Lib.Lru
import SystemsLabs.Lib.Runs
import SystemsLabs.Lib.Tiling
import SystemsLabs.Malloclab.Balanced
import SystemsLabs.Malloclab.BestFit
import SystemsLabs.Malloclab.Check
import SystemsLabs.Malloclab.CheckTrace
import SystemsLabs.Malloclab.Coalescing
import SystemsLabs.Malloclab.DriverUtil
import SystemsLabs.Malloclab.ExplicitList
import SystemsLabs.Malloclab.Fcyc
import SystemsLabs.Malloclab.FirstFitInvariants
import SystemsLabs.Malloclab.HeapWalk
import SystemsLabs.Malloclab.Mdriver
import SystemsLabs.Malloclab.Realloc
import SystemsLabs.Malloclab.ReallocFailure
import SystemsLabs.Proxylab.Accept
import SystemsLabs.Proxylab.Buffers
import SystemsLabs.Proxylab.ChunkSize
import SystemsLabs.Proxylab.Chunked
import SystemsLabs.Proxylab.Descriptors
import SystemsLabs.Proxylab.Forwarding
import SystemsLabs.Proxylab.Logging
import SystemsLabs.Proxylab.Malformed
import SystemsLabs.Proxylab.ResolverLock
import SystemsLabs.Proxylab.Transaction
import SystemsLabs.Proxylab.UriGrammar
import SystemsLabs.Shlab.CommandLine
import SystemsLabs.Shlab.Foreground
import SystemsLabs.Shlab.JobIds
import SystemsLabs.Shlab.JobTable
import SystemsLabs.Shlab.KeyboardSafe
import SystemsLabs.Shlab.Listing
import SystemsLabs.Shlab.ReadEval
import SystemsLabs.Shlab.Reaping
import SystemsLabs.Shlab.Tracking
