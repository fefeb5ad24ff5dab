import AtomicOps.Integer
import AtomicOps.Order
import AtomicOps.Register
import AtomicOps.Gcc
import AtomicOps.Msvc
import AtomicOps.Equivalence
import AtomicOps.FetchSub
import AtomicOps.Outcome
import AtomicOps.Threads
import AtomicOps.Bits
