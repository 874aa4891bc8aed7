import MarketPlatform.Proofs.Absent
import MarketPlatform.Proofs.Accounted
import MarketPlatform.Proofs.Attribution
import MarketPlatform.Proofs.Audits
import MarketPlatform.Proofs.Backoff
import MarketPlatform.Proofs.Balance
import MarketPlatform.Proofs.BookMap
import MarketPlatform.Proofs.BookReconstruction
import MarketPlatform.Proofs.ClosedMinutes
import MarketPlatform.Proofs.Completeness
import MarketPlatform.Proofs.Crossed
import MarketPlatform.Proofs.Depth
import MarketPlatform.Proofs.Estimators
import MarketPlatform.Proofs.FailedUpdates
import MarketPlatform.Proofs.FalseLoss
import MarketPlatform.Proofs.Freshness
import MarketPlatform.Proofs.Gates
import MarketPlatform.Proofs.Heartbeats
import MarketPlatform.Proofs.Interference
import MarketPlatform.Proofs.Isolation
import MarketPlatform.Proofs.LagBuffer
import MarketPlatform.Proofs.Latency
import MarketPlatform.Proofs.Lateness
import MarketPlatform.Proofs.Ledgers
import MarketPlatform.Proofs.Liquidity
import MarketPlatform.Proofs.LogLines
import MarketPlatform.Proofs.OtherMessages
import MarketPlatform.Proofs.Paging
import MarketPlatform.Proofs.Pruning
import MarketPlatform.Proofs.PublishErrors
import MarketPlatform.Proofs.Published
import MarketPlatform.Proofs.Recovery
import MarketPlatform.Proofs.Refresh
import MarketPlatform.Proofs.Replay
import MarketPlatform.Proofs.Reporter
import MarketPlatform.Proofs.RollUp
import MarketPlatform.Proofs.Verdicts
import MarketPlatform.Proofs.Volatility
import MarketPlatform.Proofs.Vwap
import MarketPlatform.Proofs.Wire
