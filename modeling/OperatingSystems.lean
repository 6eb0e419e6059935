import OperatingSystems.LibraryRuns
import OperatingSystems.LibraryThreads
import OperatingSystems.LibraryLoop
import OperatingSystems.LibraryCallTree
import OperatingSystems.LibraryEventually
import OperatingSystems.LibraryTraces
import OperatingSystems.LibraryPool
import OperatingSystems.LibraryStall
import OperatingSystems.LibraryPatches
import OperatingSystems.LibraryIntervals
import OperatingSystems.LibraryRecords
import OperatingSystems.DriverModel
import OperatingSystems.DriverBounds
import OperatingSystems.DriverDevice
import OperatingSystems.DriverHistory
import OperatingSystems.DriverDisclosure
import OperatingSystems.DriverTransfer
import OperatingSystems.LookupModel
import OperatingSystems.LookupMoves
import OperatingSystems.LookupUnderflow
import OperatingSystems.LookupOverflow
import OperatingSystems.LookupConservation
import OperatingSystems.LookupClaims
import OperatingSystems.LookupLocks
import OperatingSystems.LookupDeadlock
import OperatingSystems.LookupFinish
import OperatingSystems.LookupWakeups
import OperatingSystems.LookupStreams
import OperatingSystems.LookupLines
import OperatingSystems.ProgramModel
import OperatingSystems.ProgramSearch
import OperatingSystems.ProgramCourse
import OperatingSystems.ProgramHalting
import OperatingSystems.ProgramDecisions
import OperatingSystems.ProgramReplay
import OperatingSystems.ProgramWrites
import OperatingSystems.ProgramPseudo
import OperatingSystems.ProgramRefines
import OperatingSystems.SimulatorModel
import OperatingSystems.SimulatorJobs
import OperatingSystems.SimulatorRuns
import OperatingSystems.SimulatorSlots
import OperatingSystems.SimulatorSchedule
import OperatingSystems.SimulatorFrames
import OperatingSystems.SimulatorStall
import OperatingSystems.SimulatorFreeze
import OperatingSystems.SimulatorProgress
import OperatingSystems.SimulatorSteps
import OperatingSystems.PagerLru
import OperatingSystems.PagerLruProgress
import OperatingSystems.PagerPredict
import OperatingSystems.PagerPredictRequests
import OperatingSystems.PagerPredictHistory
import OperatingSystems.SimulatorCharges
import OperatingSystems.SimulatorResidence
import OperatingSystems.SimulatorRange
import OperatingSystems.SimulatorSolo
import OperatingSystems.SimulatorExits
import OperatingSystems.SimulatorStraight
import OperatingSystems.SimulatorPseudo
import OperatingSystems.SimulatorIdle
import OperatingSystems.PagerBasic
import OperatingSystems.PagerBasicSerial
import OperatingSystems.PagerBasicProgress
import OperatingSystems.PagerResidence
import OperatingSystems.SimulatorTransfers
import OperatingSystems.PagerDemand
import OperatingSystems.SimulatorLog
import OperatingSystems.SimulatorPageLog
import OperatingSystems.SimulatorBlocked
import OperatingSystems.SimulatorScore
import OperatingSystems.SimulatorScoreRange
import OperatingSystems.SimulatorSpent
import OperatingSystems.SimulatorFloor
import OperatingSystems.PagerBasicLength
import OperatingSystems.PagerLruRoom
import OperatingSystems.SimulatorDetector
import OperatingSystems.PagerDetector
import OperatingSystems.LookupTermination
import OperatingSystems.LookupCompletion
import OperatingSystems.LookupResolve
import OperatingSystems.PagerPatience
import OperatingSystems.SimulatorReader
import OperatingSystems.PagerApiTest
import OperatingSystems.LibraryCongruential
import OperatingSystems.SimulatorSeed
import OperatingSystems.SimulatorMain
import OperatingSystems.LibraryListScheduling
import OperatingSystems.SimulatorMakespan
import OperatingSystems.SimulatorPageReader
import OperatingSystems.PagerPredictRoom
import OperatingSystems.LibraryStreams
import OperatingSystems.LookupResults
import OperatingSystems.PagerSpeedup
