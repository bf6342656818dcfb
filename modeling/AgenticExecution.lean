import AgenticExecution.Library.Lts
import AgenticExecution.Library.Pool
import AgenticExecution.Library.InOrder
import AgenticExecution.Aggregator
import AgenticExecution.Database
import AgenticExecution.JobQueue
import AgenticExecution.Machine
import AgenticExecution.Evolution
import AgenticExecution.WellFormed
import AgenticExecution.Knowledge
import AgenticExecution.HandlerSteps
import AgenticExecution.Safety
import AgenticExecution.Effects
import AgenticExecution.Dependencies
import AgenticExecution.Executions
import AgenticExecution.Completion
import AgenticExecution.Workers
import AgenticExecution.Results
import AgenticExecution.RetryBudget
import AgenticExecution.Leases
import AgenticExecution.Progress
import AgenticExecution.Recovery
import AgenticExecution.Exclusive
import AgenticExecution.Planning
import AgenticExecution.Settled
import AgenticExecution.DeadLetters
import AgenticExecution.Backoff
import AgenticExecution.PlanDependencies
import AgenticExecution.SchedulingPass
import AgenticExecution.EventStream
import AgenticExecution.Streaming
import AgenticExecution.Fates
import AgenticExecution.Accounts
import AgenticExecution.Outcomes
import AgenticExecution.Confluence
import AgenticExecution.Agreement
import AgenticExecution.PlanShape
import AgenticExecution.Passes
import AgenticExecution.Joins
import AgenticExecution.RateLimit
import AgenticExecution.CalculatorBounds
import AgenticExecution.Observations
import AgenticExecution.Aggregation
import AgenticExecution.Extraction
import AgenticExecution.RetryDelay
import AgenticExecution.InFlight
import AgenticExecution.Work
import AgenticExecution.Finishing
import AgenticExecution.DeadLetterQueue
import AgenticExecution.FleetThreads
import AgenticExecution.Prometheus
import AgenticExecution.Providers
import AgenticExecution.Timeline
import AgenticExecution.EventText
