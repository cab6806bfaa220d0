import IronAuth.Journeys.Revalidation
import IronAuth.Quota.Charges
import IronAuth.Quota.Ceiling
import IronAuth.Quota.SharedBudget
import IronAuth.Saml.Wrapping
import IronAuth.Scim.GroupSelectors
import IronAuth.Scim.Users
import IronAuth.Store.MessageMime
import IronAuth.Store.MessageRate
import IronAuth.Store.OrgPolicy
import IronAuth.Store.RefreshSession
import IronAuth.Store.Codes
import IronAuth.Store.Shred
import IronAuth.Webauthn.X509
import IronAuth.Oidc.StepUp
import IronAuth.Oidc.TokenExchange
import IronAuth.Jose.Lineage
import IronAuth.Jose.Caches
import IronAuth.Store.RotationHeals
import IronAuth.Store.RotationNodes
import IronAuth.Store.TraitWrites
import IronAuth.Store.PromotionConverges
import IronAuth.Store.InterchangeRoundTrip
import IronAuth.Store.OutboxRuns
import IronAuth.Store.AuditChain
import IronAuth.Journeys.Transcript
import IronAuth.Admin.LogShipper
import IronAuth.Quota.RetryAfter
import IronAuth.Store.Replication
import IronAuth.Quota.Usage
import IronAuth.Saml.Base64
import IronAuth.Der.Time
import IronAuth.Store.JwksProjection
