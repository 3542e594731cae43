import ZephyrRust.Object
import ZephyrRust.InitRace
import ZephyrRust.CallProgress
import ZephyrRust.ExactlyOnce
import ZephyrRust.Linearizability
import ZephyrRust.Philosophers.Table
import ZephyrRust.Philosophers.Forks
import ZephyrRust.Philosophers.WaitFor
import ZephyrRust.Philosophers.Refinement
import ZephyrRust.Philosophers.RandomDelay
import ZephyrRust.Philosophers.Liveness
import ZephyrRust.Philosophers.Reachability
